import LosslessCss.Print
import LosslessCss.Proofs.Deriving

/-!
# Statements that end where they are printed

Nodes that were read can be printed in a new order.  The text is read as what it was printed from if
each statement ends where it is printed.  What can go wrong is little: a statement that nothing but
the end of its block ended may now have a comment or a semicolon behind it, and then it goes on.
`Node.EndsBefore` says when it does not, in terms of the text behind the node, and `Forest.Settled`
says it for all nodes of a forest.

## Main Definitions

* `Node.ownText`, `Node.trail` : the text of a node, and what is printed between it and its block or
  the next node
* `Node.EndsBefore` : the node ends in front of the text behind it
* `Forest.Settled` : all nodes do
* `Forest.Legible` : what is known of nodes that were read, wherever they stand now

## Main Statements

* `Forest.Legible.reads_print` : a settled forest is read as what it was printed from
-/

namespace LosslessCss

/-! ### The text of a node -/

namespace Node

/-- **The text of a node**, without the gap in front of its block or its semicolon. -/
def ownText (n : Node) : String :=
  match n.content with
  | .root => ""
  | .atRule name params _ =>
    "@" ++ name ++ n.raws.afterName.getD (if params.isEmpty then "" else " ") ++ params
  | .rule selector => selector
  | .declaration property text important =>
    property ++ n.raws.between.getD ": " ++ text ++
      (if important then n.raws.important.getD " !important" else "")
  | .comment text => "/*" ++ n.raws.left.getD " " ++ text ++ n.raws.right.getD " " ++ "*/"

/-- What the faithful layout writes between the text of a node and its block, or what follows. -/
def trail (semicolon : Bool) (n : Node) : String :=
  match n.content with
  | .root | .comment _ => ""
  | .atRule _ _ hasBody =>
    n.raws.between.getD (if hasBody then " " else "") ++
      (if hasBody then "" else Layout.semicolonIf semicolon)
  | .rule _ => n.raws.between.getD " "
  | .declaration .. => if semicolon then n.raws.afterValue.getD "" ++ ";" else ""

/-- The faithful layout writes the text and then the trail. -/
theorem faithfulHead_eq (semicolon : Bool) (n : Node) :
    Layout.faithfulHead id semicolon n = n.ownText ++ n.trail semicolon := by
  unfold Layout.faithfulHead ownText trail
  cases n.content <;> simp [String.append_assoc]

/-- The lexemes of the text of a node. -/
def lexemes (n : Node) : List Lexeme :=
  (tokenize { text := n.ownText } false).tokens.map Token.lexeme

end Node

/-- The last lexeme is a word that ends inside an escape. -/
def Lexeme.endsInEscape (ls : List Lexeme) : Bool :=
  ls.getLast?.any fun l => l.kind == .word && Token.dangles l.text

/-- **The node ends in front of the text behind it.**  No backslash at its end takes a character of
that text along; no address starts there; and unless the node has a block, that text ends it: with
the end of the block around it or, outside all parentheses and brackets, with a semicolon. -/
structure Node.EndsBefore (n : Node) (behind : List Char) : Prop where
  escape : Lexeme.endsInEscape n.lexemes = true → behind = []
  address : Lexeme.opensAddress n.lexemes = true →
    behind.head?.any Token.startsAddress = false
  ended : n.content.opensBlock = false → ∀ c ∈ (behind.dropWhile Token.isBlank).head?,
    c = '\x7d' ∨ c = ';' ∧ Statement.depth? 0 (n.lexemes.map Lexeme.kind) = some 0

/-- **All nodes of a forest end** in front of what the faithful layout prints behind them; `behind`
is the text behind the forest. -/
def Forest.Settled (closed : Bool) (depth : Nat) (behind : List Char) : Forest Node → Prop
  | nil => True
  | cons n children next =>
    let after := (next.print (.faithful id) closed false depth).toList ++ behind
    let foot := ((Layout.faithful id).foot children.isEmpty depth n).toList ++ '\x7d' :: after
    let inner := (children.print (.faithful id) ((Layout.faithful id).closesLast n) false
      (depth + 1)).toList ++ foot
    let trail := (n.trail (closed || next.hasStatement)).toList
    (n.content.isComment = false →
        n.EndsBefore (trail ++ if n.content.opensBlock then '\x7b' :: inner else after)) ∧
      (n.content.opensBlock = true →
        children.Settled ((Layout.faithful id).closesLast n) (depth + 1) foot) ∧
      next.Settled closed depth behind

/-! ### What is known of nodes that were read -/

/-- **A forest of nodes that were read**, and nodes without a block hold nothing. -/
def Forest.Legible : Forest Node → Prop
  | nil => True
  | cons n children next =>
    (n.Written ∧ n.Spaced ∧ (n.content.opensBlock = false → children = nil)) ∧
      children.Legible ∧ next.Legible

namespace Statement.Stands

variable {run : List Token} {depth : Nat} {text ahead behind : List Char}

/-- **A run stands in front of another text** that can follow it. -/
theorem change (h : Stands run depth text ahead) (hstops : Token.Stops ahead)
    (hstops' : Token.Stops behind)
    (hescape : Lexeme.endsInEscape (run.map Token.lexeme) = true → behind = [])
    (haddress : Lexeme.opensAddress (run.map Token.lexeme) = true →
      behind.head?.any Token.startsAddress = false) :
    Stands run depth text behind := by
  refine ⟨h.starts, h.depth, h.ends, ?_⟩
  obtain ⟨last, hlast, hlexes⟩ := h.lexes
  rcases List.eq_nil_or_concat run with rfl | ⟨front, t, rfl⟩
  · cases hlexes
    exact ⟨_, hlast, .nil _ _⟩
  · rw [List.concat_eq_append, List.map_append, List.map_singleton] at hlexes hescape haddress ⊢
    have hspace : t.lexeme.kind ≠ .space := by
      have hend := h.ends t (by simp)
      intro hkind
      rw [Token.isSpace, show t.kind = .space from hkind] at hend
      cases hend
    obtain ⟨last', hlexes', hiff⟩ := hlexes.change hstops hstops' hspace fun hkind hdangle =>
      hescape (by simp [Lexeme.endsInEscape, hkind, hdangle])
    refine ⟨last', fun hlast' => ?_, hlexes'⟩
    obtain ⟨hopens, hstart⟩ := hiff.mp hlast'
    rw [haddress hopens] at hstart
    cases hstart

/-- The lexemes of a run are those of its text. -/
theorem tokenize_eq (h : Stands run depth text ahead) (hstops : Token.Stops ahead) {x : String}
    (hx : x.toList = text) :
    (tokenize { text := x } false).tokens.map Token.lexeme = run.map Token.lexeme := by
  obtain ⟨last, -, hlexes⟩ := (h.change hstops Token.stops_nil (fun _ => rfl) (fun _ => rfl)).lexes
  rw [← hx] at hlexes
  exact ((Reader.ofSource_fresh { text := x } false).drain_of_lexes hlexes).2

end Statement.Stands

namespace Node

variable {n : Node} {run : List Token}

/-- The text of a node that is no comment is the text of its run. -/
theorem ownText_eq_concat (hcontent : n.content.ReadFrom run)
    (hrecords : n.content.Records run n.raws)
    (hspells : ∀ t ∈ run, t.kind.Spells t.text.toList) : n.ownText = Token.concat run := by
  unfold ownText
  generalize n.content = c at hcontent hrecords
  cases hcontent with
  | rule => rfl
  | @atRule first hfirst hkind hasBody =>
    obtain ⟨hname, -⟩ := hrecords
    obtain ⟨others, rfl⟩ := List.head?_eq_some_iff.mp hfirst
    obtain ⟨name, hword⟩ : ∃ name, first.text.toList = '@' :: name := by
      simpa [hkind, Token.Kind.Spells] using hspells first List.mem_cons_self
    simp only [hname, Option.getD_some]
    exact AtRuleHead.ofTokens_text others hword
  | @declaration parts hfirst hparts =>
    obtain ⟨parts', hparts', hbetween, himportant, -⟩ := hrecords
    obtain rfl : parts = parts' := Except.ok.inj (hparts.symm.trans hparts')
    have htext := DeclarationParts.ofTokens_text hparts
    simp only [hbetween, himportant, Option.getD_some, ← htext]
    cases parts.important <;> simp

/-- **The trail of a node** is blank space, and the semicolon if there is to be one. -/
theorem exists_trail (hcontent : n.content.ReadFrom run)
    (hrecords : n.content.Records run n.raws) (semicolon : Bool) :
    ∃ gap, IsBlankText gap ∧ n.trail semicolon =
      gap ++ if n.content.opensBlock then "" else Layout.semicolonIf semicolon := by
  unfold trail
  generalize n.content = c at hcontent hrecords
  cases hcontent with
  | rule =>
    obtain ⟨gap, hgap, hblank⟩ := hrecords
    exact ⟨gap, hblank, by simp [hgap, Content.opensBlock]⟩
  | atRule =>
    obtain ⟨-, gap, hgap, hblank⟩ := hrecords
    refine ⟨gap, hblank, ?_⟩
    rw [hgap]
    rfl
  | declaration =>
    obtain ⟨-, -, -, -, gap, hgap, hblank⟩ := hrecords
    cases semicolon with
    | false => exact ⟨"", isBlankText_empty, rfl⟩
    | true => exact ⟨gap, hblank, by simp [hgap, Content.opensBlock, Layout.semicolonIf]⟩

end Node

namespace Node.Written

variable {n : Node}

/-- **A node that is no comment** was read as a run that stands in front of something. -/
theorem exists_run (h : n.Written) (hcomment : n.content.isComment = false) :
    ∃ run depth ahead, Statement.Stands run depth n.ownText.toList ahead ∧ Token.Stops ahead ∧
      n.content.ReadFrom run ∧ n.content.Records run n.raws ∧
        n.lexemes = run.map Token.lexeme := by
  cases h with
  | comment hinner hcontent =>
    rw [hcontent] at hcomment
    cases hcomment
  | @run run depth text ahead hstands hstops hcontent hrecords =>
    obtain ⟨last, -, hlexes⟩ := hstands.lexes
    have htext := Node.ownText_eq_concat hcontent hrecords hlexes.spells_tokens
    rw [← hstands.text_eq, ← htext] at hstands
    exact ⟨run, depth, ahead, hstands, hstops, hcontent, hrecords, hstands.tokenize_eq hstops rfl⟩

/-- **The text of a comment** is the comment that was read. -/
theorem exists_inner (h : n.Written) (hcomment : n.content.isComment = true) :
    ∃ inner, Token.commentTail (inner ++ ['*', '/']) = some (inner.length + 2) ∧
      n.ownText.toList = '/' :: '*' :: (inner ++ ['*', '/']) ∧
        n.content = .comment (CommentParts.ofText
          (String.ofList ('/' :: '*' :: (inner ++ ['*', '/'])))).text := by
  cases h with
  | @comment inner hinner hcontent hleft hright =>
    refine ⟨inner, hinner, ?_, hcontent⟩
    have htext := CommentParts.ofText_text
      (String.toList_ofList (l := '/' :: '*' :: (inner ++ ['*', '/'])))
    rw [Node.ownText, hcontent, hleft, hright]
    simp only [Option.getD_some, htext, String.toList_ofList]
  | run hstands hstops hcontent =>
    rw [hcontent.isComment_eq_false] at hcomment
    cases hcomment

end Node.Written

/-! ### Gaps -/

/-- A gap that was not recorded is a new line or nothing. -/
theorem isGapText_getD {gap : Option String} (hgap : ∀ x ∈ gap, IsGapText x) (none : Bool)
    (depth : Nat) : IsGapText (gap.getD (if none then "" else Layout.newLine depth)) := by
  cases gap with
  | some gap => exact hgap gap rfl
  | none =>
    cases none with
    | true => exact isGapText_empty
    | false =>
      intro c hc
      have hc' : c = '\n' ∨ depth ≠ 0 ∧ c = ' ' := by
        simpa [Layout.newLine] using hc
      rcases hc' with rfl | ⟨-, rfl⟩ <;> rfl

/-- The gap in front of a node is a gap. -/
theorem Node.Spaced.leading {n : Node} (h : n.Spaced) (first : Bool) (depth : Nat) :
    IsGapText ((Layout.faithful id).leading first depth n) :=
  isGapText_getD h.before first depth

/-- The gap at the end of a block is a gap. -/
theorem Node.Spaced.foot {n : Node} (h : n.Spaced) (isEmpty : Bool) (depth : Nat) :
    IsGapText ((Layout.faithful id).foot isEmpty depth n) :=
  isGapText_getD h.after isEmpty depth

namespace Statement.Stands

variable {run : List Token} {depth : Nat} {text ahead : List Char}

/-- A run with a token has a text. -/
theorem text_ne_nil (h : Stands run depth text ahead) (hrun : run ≠ []) : text ≠ [] := by
  obtain ⟨last, -, hlexes⟩ := h.lexes
  obtain ⟨t, ts, rfl⟩ := List.exists_cons_of_ne_nil hrun
  rw [List.map_cons] at hlexes
  generalize t.lexeme = l at hlexes
  cases hlexes
  simp

/-- **A run starts with neither a gap nor the end of a block.** -/
theorem head (h : Stands run depth text ahead) :
    ∀ c ∈ text.head?, Token.isGap c = false ∧ c ≠ '\x7d' := by
  obtain ⟨last, -, hlexes⟩ := h.lexes
  cases run with
  | nil =>
    cases hlexes
    simp
  | cons t ts =>
    have hstart := h.starts t rfl
    rw [List.map_cons] at hlexes
    generalize hlexeme : t.lexeme = l at hlexes
    cases hlexes with
    | @cons _ _ kind c text cs _ _ hscan htail =>
      obtain rfl : t.kind = kind := congrArg Lexeme.kind hlexeme
      have hother {kind' : Token.Kind} {m : Nat}
          (hscan' : Token.Scans c (text ++ (cs ++ ahead)) .plain kind' m)
          (hkind' : kind'.startsStatement = false) : False := by
        rw [(hscan.unique hscan').1, hkind'] at hstart
        cases hstart
      intro d hd
      obtain rfl : c = d := by simpa using hd
      refine ⟨?_, ?_⟩
      · rw [Token.isGap, Bool.or_eq_false_iff]
        refine ⟨?_, ?_⟩
        · by_contra hblank
          exact hother (.space (by simp) (by simpa using hblank)) rfl
        · by_contra hsemi
          obtain rfl : c = ';' := by simpa using hsemi
          exact hother (.punctuation (by simp) rfl) rfl
      · rintro rfl
        exact hother (.punctuation (by simp) rfl) rfl

end Statement.Stands

/-- **A gap in front of a text of the grammar** can be taken away. -/
theorem Reads.of_gap {c : Char} {cs rest : List Char} {f : Forest Content}
    (h : Reads (c :: cs) f rest) (hgap : Token.isGap c = true)
    (hrest : ∀ c ∈ rest.head?, c = '\x7d') : Reads cs f rest := by
  generalize htext : c :: cs = text at h
  cases h with
  | nil rest =>
    subst htext
    obtain rfl := hrest c rfl
    cases hgap
  | gap _ hreads =>
    obtain ⟨-, rfl⟩ := List.cons.inj htext
    exact hreads
  | comment =>
    obtain ⟨rfl, -⟩ := List.cons.inj htext
    cases hgap
  | @closed run text gap _ _ _ _ hstands _ hcontent hblock =>
    obtain ⟨d, text, rfl⟩ :=
      List.exists_cons_of_ne_nil (hstands.text_ne_nil (hcontent.ne_nil hblock))
    obtain ⟨rfl, -⟩ := List.cons.inj htext
    rw [(hstands.head c rfl).1] at hgap
    cases hgap
  | @last run _ text _ _ _ _ hstands _ hcontent hblock =>
    obtain ⟨d, text, rfl⟩ :=
      List.exists_cons_of_ne_nil (hstands.text_ne_nil (hcontent.ne_nil hblock))
    obtain ⟨rfl, -⟩ := List.cons.inj htext
    rw [(hstands.head c rfl).1] at hgap
    cases hgap
  | @block run depth text blank inner _ _ _ _ _ hstands hblank hcontent hblock hinner hreads =>
    cases text with
    | cons d text =>
      obtain ⟨rfl, -⟩ := List.cons.inj htext
      rw [(hstands.head c rfl).1] at hgap
      cases hgap
    | nil =>
      -- Nothing stands in front of the block, so the gap is the one in front of its brace.
      cases blank with
      | nil =>
        obtain ⟨rfl, -⟩ := List.cons.inj htext
        cases hgap
      | cons d blank =>
        obtain ⟨-, rfl⟩ := List.cons.inj htext
        have hrun : run = [] := by
          by_contra hrun
          exact hstands.text_ne_nil hrun rfl
        subst hrun
        have hstands' : Statement.Stands [] depth [] (blank ++ '\x7b' :: inner) :=
          ⟨by simp, hstands.depth, by simp, .plain, by simp, .nil _ _⟩
        exact .block hstands' (fun e he => hblank e (List.mem_cons_of_mem d he)) hcontent hblock
          hinner hreads

/-- **A gap text in front of a text of the grammar** can be taken away. -/
theorem Reads.of_gap_append {gap cs rest : List Char} {f : Forest Content}
    (h : Reads (gap ++ cs) f rest) (hgap : ∀ c ∈ gap, Token.isGap c = true)
    (hrest : ∀ c ∈ rest.head?, c = '\x7d') : Reads cs f rest := by
  induction gap with
  | nil => exact h
  | cons c gap ih =>
    exact ih (h.of_gap (hgap c List.mem_cons_self) hrest)
      fun d hd => hgap d (List.mem_cons_of_mem c hd)

/-! ### A settled forest is read again -/

/-- What ends a leaf starts like the end of a statement. -/
theorem Node.EndsBefore.stops {n : Node} {behind : List Char} (h : n.EndsBefore behind)
    (hblock : n.content.opensBlock = false) : Token.Stops behind := by
  intro c hc
  by_cases hblank : Token.isBlank c = true
  · exact .inl hblank
  · obtain ⟨cs, rfl⟩ := List.head?_eq_some_iff.mp hc
    rcases h.ended hblock c (by simp [hblank]) with rfl | ⟨rfl, -⟩ <;> simp

/-- **A node that ends in front of a text** stands there as the run that it was read from. -/
theorem Node.Written.stands {n : Node} {behind : List Char} (h : n.Written)
    (hcomment : n.content.isComment = false) (hends : n.EndsBefore behind)
    (hstops : Token.Stops behind) :
    ∃ run depth, Statement.Stands run depth n.ownText.toList behind ∧ n.content.ReadFrom run ∧
      n.content.Records run n.raws ∧ n.lexemes = run.map Token.lexeme := by
  obtain ⟨run, depth, ahead, hstands, hahead, hcontent, hrecords, hlexemes⟩ :=
    h.exists_run hcomment
  have hescape := hends.escape
  have haddress := hends.address
  rw [hlexemes] at hescape haddress
  exact ⟨run, depth, hstands.change hahead hstops hescape haddress, hcontent, hrecords, hlexemes⟩

/-- **A leaf that ends in front of a text** is read as what it is. -/
theorem Node.Written.reads_leaf {n : Node} {behind rest : List Char} {g : Forest Content}
    (h : n.Written) (hcomment : n.content.isComment = false)
    (hblock : n.content.opensBlock = false) (hends : n.EndsBefore behind)
    (hbehind : Reads behind g rest) (hrest : ∀ c ∈ rest.head?, c = '\x7d') :
    Reads (n.ownText.toList ++ behind) (.cons n.content .nil g) rest := by
  obtain ⟨run, depth, hstands, hcontent, -, hlexemes⟩ :=
    h.stands hcomment hends (hends.stops hblock)
  have hsplit := List.takeWhile_append_dropWhile (p := Token.isBlank) (l := behind)
  have hblank : ∀ c ∈ behind.takeWhile Token.isBlank, Token.isBlank c = true :=
    fun c hc => List.mem_takeWhile_imp hc
  by_cases hsemi : (behind.dropWhile Token.isBlank).head? = some ';'
  · obtain ⟨cs, hcs⟩ := List.head?_eq_some_iff.mp hsemi
    have hdepth : depth = 0 := by
      rcases hends.ended hblock ';' hsemi with h | ⟨-, h⟩
      · cases h
      · rw [hlexemes, List.map_map] at h
        exact Option.some.inj (hstands.depth.symm.trans h)
    subst hdepth
    rw [hcs] at hsplit
    rw [← hsplit] at hbehind hstands ⊢
    have hcsReads : Reads cs g rest :=
      (hbehind.of_gap_append (fun c hc => by simp [Token.isGap, hblank c hc]) hrest).of_gap rfl
        hrest
    exact .closed hstands hblank hcontent hblock hcsReads
  · refine .last hstands (fun c hc => ?_) hcontent hblock hbehind
    rcases hends.ended hblock c hc with h | ⟨rfl, -⟩
    · exact h
    · exact absurd hc hsemi

/-- A comment node is printed as the comment that it was read from. -/
theorem Node.Written.reads_comment {n : Node} {behind rest : List Char} {g : Forest Content}
    (h : n.Written) (hcomment : n.content.isComment = true) (hbehind : Reads behind g rest) :
    Reads (n.ownText.toList ++ behind) (.cons n.content .nil g) rest := by
  obtain ⟨inner, hinner, htext, hcontent⟩ := h.exists_inner hcomment
  rw [htext, hcontent]
  exact hbehind.comment hinner

/-- **What is printed of a forest**, the first node taken apart. -/
theorem Forest.toList_print_cons (closed first : Bool) (depth : Nat) (n : Node)
    (children next : Forest Node) (behind : List Char) :
    (Forest.print (.faithful id) closed first depth (.cons n children next)).toList ++ behind =
      ((Layout.faithful id).leading first depth n).toList ++ (n.ownText.toList ++
        ((n.trail (closed || next.hasStatement)).toList ++
          let after := (next.print (.faithful id) closed false depth).toList ++ behind
          if n.content.opensBlock then
            '\x7b' :: ((children.print (.faithful id) ((Layout.faithful id).closesLast n) false
              (depth + 1)).toList ++
                (((Layout.faithful id).foot children.isEmpty depth n).toList ++ '\x7d' :: after))
          else after)) := by
  have hhead : (Layout.faithful id).head = Layout.faithfulHead id := rfl
  have hkeeps : (Layout.faithful id).keeps n = true := rfl
  rw [Forest.print, if_pos hkeeps, Layout.wrap, hhead, Node.faithfulHead_eq]
  cases n.content.opensBlock <;> simp

/-- A comment has no trail. -/
theorem Node.trail_of_isComment {n : Node} (h : n.content.isComment = true) (semicolon : Bool) :
    n.trail semicolon = "" := by
  unfold trail
  generalize n.content = c at h
  cases c <;> first | rfl | cases h

/-- The trail of a leaf is a gap. -/
theorem Node.Written.trail_isGapText {n : Node} (h : n.Written) (semicolon : Bool) :
    IsGapText (n.trail semicolon) := by
  cases hcomment : n.content.isComment with
  | true =>
    rw [Node.trail_of_isComment hcomment]
    exact isGapText_empty
  | false =>
    obtain ⟨run, -, -, -, -, hcontent, hrecords, -⟩ := h.exists_run hcomment
    obtain ⟨gap, hgap, htrail⟩ := Node.exists_trail hcontent hrecords semicolon
    rw [htrail]
    refine hgap.isGapText.append ?_
    cases n.content.opensBlock <;> cases semicolon <;> simp [IsGapText, Layout.semicolonIf,
      Token.isGap]

/-- **The trail of a block** is blank space. -/
theorem Node.Written.trail_isBlankText {n : Node} (h : n.Written)
    (hblock : n.content.opensBlock = true) (semicolon : Bool) :
    IsBlankText (n.trail semicolon) := by
  obtain ⟨run, -, -, -, -, hcontent, hrecords, -⟩ :=
    h.exists_run (Content.isComment_of_opensBlock hblock)
  obtain ⟨gap, hgap, htrail⟩ := Node.exists_trail hcontent hrecords semicolon
  rw [htrail, hblock]
  simpa using hgap

/-- **A settled forest is read as what it was printed from.** -/
theorem Forest.Legible.reads_print {f : Forest Node} (hf : f.Legible) {closed : Bool} (first : Bool)
    {depth : Nat} {behind rest : List Char} {g : Forest Content} (hsettled : f.Settled closed depth behind)
    (hbehind : Reads behind g rest) (hrest : ∀ c ∈ rest.head?, c = '\x7d') :
    Reads ((f.print (.faithful id) closed first depth).toList ++ behind)
      (f.map Node.content ++ g) rest := by
  induction f generalizing closed first depth behind rest g with
  | nil => simpa [Forest.print, Forest.map] using hbehind
  | cons n children next ihChildren ihNext =>
    obtain ⟨⟨hwritten, hspaced, hleaf⟩, hchildren, hnext⟩ := hf
    obtain ⟨hends, hinner, hlater⟩ := hsettled
    have hafter := ihNext hnext false hlater hbehind hrest
    rw [Forest.toList_print_cons]
    refine Reads.gap_append (hspaced.leading first depth) ?_
    rw [Forest.map, Forest.cons_append]
    cases hblock : n.content.opensBlock with
    | false =>
      have htrail := hwritten.trail_isGapText (closed || next.hasStatement)
      have hbehind' := hafter.gap_append htrail
      rw [hleaf hblock]
      cases hcomment : n.content.isComment with
      | true => exact hwritten.reads_comment hcomment hbehind'
      | false =>
        rw [hblock] at hends
        exact hwritten.reads_leaf hcomment hblock (hends hcomment) hbehind' hrest
    | true =>
      have hcomment := Content.isComment_of_opensBlock hblock
      have htrail := hwritten.trail_isBlankText hblock (closed || next.hasStatement)
      have hstops (cs : List Char) : Token.Stops
          ((n.trail (closed || next.hasStatement)).toList ++ '\x7b' :: cs) := by
        cases hcs : (n.trail (closed || next.hasStatement)).toList with
        | nil => simp [Token.Stops]
        | cons c cs => exact Token.stops_cons_of_isBlank _ (htrail c (by simp [hcs]))
      replace hends := hends hcomment
      rw [hblock, if_pos rfl] at hends
      rw [if_pos rfl]
      obtain ⟨run, depth', hstands, hcontent, -, -⟩ :=
        hwritten.stands hcomment hends (hstops _)
      have hfoot := (Reads.nil ('\x7d' ::
        ((next.print (.faithful id) closed false depth).toList ++ behind))).gap_append
          (hspaced.foot children.isEmpty depth)
      have hinside := ihChildren hchildren false (hinner hblock) hfoot (by simp)
      rw [Forest.append_nil] at hinside
      exact .block hstands htrail hcontent hblock hinside hafter

end LosslessCss
