import LosslessCss.Proofs.Moves
import LosslessCss.Proofs.Cutting
import LosslessCss.Proofs.RoundTrip

/-!
# Sheets that nobody wrote

A sheet can be built from nothing: nodes are created and put into their places.  Such nodes have no
gaps, so the faithful layout gives each a line of its own, a space behind a colon, and a semicolon
where another statement follows.  If each node alone is read as what it is, then so is the sheet.

The node alone stands in front of a semicolon or of an empty block.  In the sheet it stands in front
of a line break, a semicolon, a brace or nothing.  What carries it from there to here is that no
backslash at its end and no `url(` wait for what follows (`Statement.Stands.anywhere`), and that a
space behind the first colon changes nothing (`Statement.Stands.spaced`).

## Main Definitions

* `Build`, `Build.apply` : the steps that create and place nodes
* `Content.alone`, `Content.Reparses` : the text of a node alone, and that it is read as the node
* `Node.Portable` : wherever the text of a node may end, it is read as the node

## Main Statements

* `Content.Reparses.portable`, `Forest.reads_print_of_portable`
* `exists_parse_print_built`
-/

namespace LosslessCss

open Token (Mode Stops)

/-! ### Building -/

/-- A step in the building of a sheet. -/
inductive Build where
  | createRule (selector : String)
  | createAtRule (name params : String)
  | createDeclaration (property value : String)
  | append (parent node : Handle)
  | prepend (parent node : Handle)
  | insertBefore (sibling node : Handle)
  | insertAfter (sibling node : Handle)
  deriving DecidableEq, Repr

/-- The sheet after a step, if the step succeeds.  An at-rule is created without a body, and a
declaration without a mark. -/
def Build.apply (s : Sheet) : Build → Except EditError Sheet
  | createRule selector => .ok (s.create (.rule selector)).2
  | createAtRule name params => .ok (s.create (.atRule name params false)).2
  | createDeclaration property value => .ok (s.create (.declaration property value false)).2
  | append parent node => s.append parent node
  | prepend parent node => s.prepend parent node
  | insertBefore sibling node => s.insertBefore sibling node
  | insertAfter sibling node => s.insertAfter sibling node

/-- The text of a node alone, with an empty block or with a semicolon. -/
def Content.alone : Content → String
  | .rule selector => selector ++ "\x7b\x7d"
  | .atRule name params hasBody =>
    "@" ++ name ++ " " ++ params ++ (if hasBody then "\x7b\x7d" else ";")
  | .declaration property value _ => property ++ ":" ++ value ++ ";"
  | .root | .comment _ => ""

/-- **The text of a node alone is read as the node** and nothing else. -/
def Content.Reparses (c : Content) : Prop :=
  ∃ t, parse { text := c.alone } false = .ok t ∧
    t.children.map Node.content = .cons c .nil .nil

/-- The contents that are built. -/
def Content.IsBuilt : Content → Prop
  | .rule _ | .atRule .. | .declaration _ _ false => True
  | .root | .declaration _ _ true | .comment _ => False

/-! ### What follows a node -/

/-- **A run that something follows** may be followed by any end of a statement. -/
theorem Statement.Stands.anywhere {run : List Token} {depth : Nat} {text ahead : List Char}
    (h : Stands run depth text ahead) (hstops : Stops ahead) (hne : ahead ≠ [])
    (haddress : Lexeme.opensAddress (run.map Token.lexeme) = true →
      ahead.head?.any Token.startsAddress = true) {behind : List Char} (hbehind : Stops behind) :
    Stands run depth text behind := by
  refine h.change hstops hbehind ?_ ?_
  · exact fun hescape => absurd (h.eq_nil_of_endsInEscape hstops hescape) hne
  · intro hopens
    rw [h.not_startsAddress hstops hopens] at haddress
    cases haddress hopens

/-- **A space behind a colon** changes nothing but the gap. -/
theorem Statement.Stands.spaced {front back : List Token} {colon : Token} {depth : Nat}
    {text ahead : List Char} (h : Stands (front ++ colon :: back) depth text ahead)
    (hfront : front ≠ []) (hcolon : colon.kind = .colon) (hback : back ≠ [])
    (hspace : ∀ t ∈ back.head?, t.isSpace = false) :
    ∃ space : Token, space.kind = .space ∧
      Stands (front ++ colon :: space :: back) depth
        ((Token.concat front).toList ++ ':' :: ' ' :: (Token.concat back).toList) ahead := by
  obtain ⟨last, hlast, hlexes⟩ := h.lexes
  rw [List.map_append] at hlexes
  obtain ⟨cs₁, cs₂, middle, -, hcs₁, hcs₂⟩ := hlexes.exists_of_append
  have hmiddle : middle ≠ .address := by
    rintro rfl
    have hword := (hcs₂.of_cons).choose_spec.2.2.1 rfl
    rw [hcolon] at hword
    cases hword
  obtain ⟨cs, rfl, hspell, -, hcs⟩ := hcs₂.of_cons
  replace hcs := hcs (by simp [hcolon]) (by simp [hcolon])
  have hcolonText : colon.text.toList = [':'] := by rwa [hcolon] at hspell
  obtain ⟨t, ts, rfl⟩ := List.exists_cons_of_ne_nil hback
  obtain ⟨d, ds, rfl, hd⟩ := hcs.exists_head (by simp) (hspace t rfl)
  refine ⟨⟨.space, " ", colon.span⟩, rfl, ⟨?_, ?_, ?_, last, hlast, ?_⟩⟩
  · intro u hu
    exact h.starts u (by rwa [List.head?_append_of_ne_nil _ hfront] at hu ⊢)
  · have hskip (d : Nat) (ks : List Token.Kind) :
        depth? d (.colon :: .space :: ks) = depth? d (.colon :: ks) := by
      simp [depth?, Token.Kind.continuesStatement, Token.Kind.depthBehind]
    have hdepth := h.depth
    rw [List.map_append, depth?_append] at hdepth ⊢
    simpa only [List.map_cons, hcolon, hskip] using hdepth
  · intro u hu
    refine h.ends u ?_
    rw [List.getLast?_append_of_ne_nil _ (by simp)] at hu ⊢
    simpa [List.getLast?_cons_cons] using hu
  · have hreach : (([] ++ (d :: ds ++ ahead)).takeWhile Token.isBlank).length =
        ([] : List Char).length := by
      simp [hd]
    have hscan : Token.Scans ' ' ([] ++ (d :: ds ++ ahead)) .plain .space
        ([] : List Char).length := by
      rw [← hreach]
      exact .space (by simp) rfl
    have hblank := Lexes.cons hscan hcs
    have hpunct := hblank.punctuation hmiddle
      (show Token.punctuation? ':' = some .colon from rfl) (by simp)
    have hstart : SameStart (colon.text.toList ++ d :: ds ++ ahead)
        (':' :: ' ' :: d :: ds ++ ahead) := by
      rw [hcolonText]
      exact ⟨rfl, by simp⟩
    have hall := (hcs₁.change_of_sameStart hstart).append hpunct
    have hfrontText : (Token.concat front).toList = cs₁ := by
      rw [Token.toList_concat, hcs₁.concat_eq]
    have hbackText : (Token.concat (t :: ts)).toList = d :: ds := by
      rw [Token.toList_concat, hcs.concat_eq]
    rw [hfrontText, hbackText]
    have hlexeme : colon.lexeme = ⟨.colon, [':']⟩ := by
      rw [Token.lexeme, hcolon, hcolonText]
    simpa [hlexeme, show Token.lexeme ⟨.space, " ", colon.span⟩ = ⟨.space, [' ']⟩ by
      simp [Token.lexeme]]
      using hall

/-- A text that starts with a space token starts with a blank character. -/
theorem Lexes.exists_blank_head {mode last : Mode} {text rest : List Char} {t : Token}
    {ts : List Token} (h : Lexes mode text rest ((t :: ts).map Token.lexeme) last)
    (ht : t.isSpace = true) : ∃ c cs, text = c :: cs ∧ Token.isBlank c = true := by
  rw [List.map_cons] at h
  generalize hlexeme : t.lexeme = l at h
  cases h with
  | @cons _ _ kind c word cs _ _ hscan htail =>
    obtain rfl : t.kind = kind := congrArg Lexeme.kind hlexeme
    have hspells := hscan.spells
    rw [show t.kind = .space by simpa [Token.isSpace] using ht] at hspells
    exact ⟨c, word ++ cs, rfl, hspells c List.mem_cons_self⟩

/-- **The halves of a declaration** in a text without gaps around its colon. -/
theorem Statement.Stands.halves {front back : List Token} {colon : Token} {depth : Nat}
    {value ahead : List Char}
    (h : Stands (front ++ colon :: back) depth
      ((Token.concat (content front)).toList ++ ':' :: value) ahead)
    (hcolon : colon.kind = .colon) :
    (Token.concat front).toList = (Token.concat (content front)).toList ∧
      (Token.concat back).toList = value ∧
        ∃ last, Lexes .plain value ahead (back.map Token.lexeme) last := by
  obtain ⟨last, -, hlexes⟩ := h.lexes
  have hspells := hlexes.spells_tokens
  have hcolonText : colon.text.toList = [':'] := by
    have hspell := hspells colon (by simp)
    rwa [hcolon] at hspell
  have hgap : IsBlankText (Token.concat (gap front)) :=
    isBlankText_concat (fun t ht => of_mem_takeTrailing ht) fun t ht =>
      hspells t (List.mem_append_left _ ((takeTrailing_isSuffix _ _).subset ht))
  have htext := h.text_eq
  rw [Token.concat_append, Token.concat_cons, ← concat_content_append_gap front,
    String.toList_append, String.toList_append, String.toList_append, hcolonText,
    List.append_assoc, List.singleton_append] at htext
  obtain ⟨hnone, hback⟩ := append_inj_of_all hgap
    (show ∀ c ∈ ([] : List Char), Token.isBlank c = true by simp)
    (by simp [Token.isBlank]) (by simp [Token.isBlank]) (List.append_cancel_left htext)
  replace hback := (List.cons.inj hback).2
  refine ⟨?_, hback, ?_⟩
  · rw [← concat_content_append_gap front, String.toList_append, hnone, List.append_nil]
  · rw [List.map_append] at hlexes
    obtain ⟨cs₁, cs₂, middle, -, -, hcs₂⟩ := hlexes.exists_of_append
    obtain ⟨cs, -, -, -, hcs⟩ := hcs₂.of_cons
    replace hcs := hcs (by simp [hcolon]) (by simp [hcolon])
    obtain rfl : cs = value := by
      rw [← hback, Token.toList_concat, hcs.concat_eq]
    exact ⟨last, hcs⟩

/-! ### A node alone -/

/-- Where a text stands again behind something, shifted by one character at most, it is not shifted
if that something cannot be what follows it. -/
theorem eq_nil_of_append_eq {p : Char → Bool} {x v behind : List Char} {d : Char}
    (h : v ++ [d] = x ++ (v ++ behind)) (hx : x.length ≤ 1 → ∀ c ∈ x, p c = true)
    (hd : p d = false) : x = [] ∧ behind = [d] := by
  have hlength := congrArg List.length h
  simp only [List.length_append, List.length_singleton] at hlength
  cases x with
  | nil => exact ⟨rfl, (List.append_cancel_left h).symm⟩
  | cons c x =>
    obtain rfl : x = [] := List.length_eq_zero_iff.mp (by simp at hlength; omega)
    obtain rfl : behind = [] := List.length_eq_zero_iff.mp (by simp at hlength; omega)
    have hcount := congrArg (List.count d) h
    have hcd : c = d := by
      by_contra hne
      simp [hne] at hcount
    have hc := hx (by simp) c List.mem_cons_self
    rw [hcd, hd] at hc
    cases hc

/-- Gaps and comments of one character are gaps. -/
theorem Trivia.all_of_length_le_one {p : Char → Bool} {cs : List Char} {k : Nat}
    (h : Trivia p cs k) (hlength : cs.length ≤ 1) : ∀ c ∈ cs, p c = true := by
  cases h with
  | nil => simp
  | gap hc h =>
    obtain rfl := List.length_eq_zero_iff.mp (Nat.le_zero.mp (Nat.le_of_succ_le_succ hlength))
    simpa using hc
  | comment =>
    simp at hlength

/-- **The first statement of a text** stands behind some gaps. -/
theorem Reads.exists_gap {text : List Char} {f : Forest Content} (h : Reads text f []) :
    ∃ gap more, text = gap ++ more ∧ (∀ c ∈ gap, Token.isGap c = true) ∧
      (∀ c ∈ more.head?, Token.isGap c = false) ∧ Reads more f [] := by
  have hcut := List.takeWhile_append_dropWhile (p := Token.isGap) (l := text)
  have hgap : ∀ c ∈ text.takeWhile Token.isGap, Token.isGap c = true :=
    fun c hc => List.mem_takeWhile_imp hc
  refine ⟨_, _, hcut.symm, hgap, ?_, ?_⟩
  · intro c hc
    have hnot := List.head?_dropWhile_not Token.isGap text
    rw [hc] at hnot
    simpa using hnot
  · rw [← hcut] at h
    exact h.of_gap_append hgap (by simp)

/-- A gap is empty if the text that it starts does not start with a gap. -/
theorem eq_nil_of_isGap {gap more text : List Char} (h : text = gap ++ more)
    (hgap : ∀ c ∈ gap, Token.isGap c = true) (htext : ∀ c ∈ text.head?, Token.isGap c = false) :
    gap = [] := by
  cases gap with
  | nil => rfl
  | cons c gap =>
    have hc := htext c (by rw [h]; rfl)
    rw [hgap c List.mem_cons_self] at hc
    cases hc

/-- **A node that can stand anywhere**: in front of everything that may end it, its text is read as
the node, up to blank space at the end of the text. -/
def Node.Portable (n : Node) : Prop :=
  ∃ run depth body blank, n.ownText.toList = body ++ blank ∧
    (∀ c ∈ blank, Token.isBlank c = true) ∧ n.content.ReadFrom run ∧
      (n.content.opensBlock = false → depth = 0) ∧
        ∀ behind, Stops behind → Statement.Stands run depth body behind

namespace Content.Reparses

/-- The text of a node alone is a text of the grammar. -/
theorem reads {c : Content} (h : c.Reparses) : Reads c.alone.toList (.cons c .nil .nil) [] := by
  obtain ⟨t, ht, hshape⟩ := h
  have hreads := (reads_of_parse ht).1
  rwa [hshape] at hreads

/-- A rule. -/
theorem portable_rule {selector : String} (h : (Content.rule selector).Reparses) :
    Node.Portable { content := .rule selector } := by
  obtain ⟨gap, more, htext, hgap, hhead, hmore⟩ := h.reads.exists_gap
  obtain ⟨run, depth, front, blank, inner, behind, rfl, hstands, hblank, hcontent, -, -⟩ :=
    hmore.of_block hhead rfl
  obtain rfl : selector.toList = front := by
    rw [Content.readFrom_rule hcontent, hstands.text_eq]
  have halone : (Content.rule selector).alone.toList = selector.toList ++ ['\x7b', '\x7d'] := by
    simp [Content.alone]
  rw [halone] at htext
  obtain rfl : gap = [] := eq_nil_of_isGap htext hgap <| by
    intro c hc
    cases hselector : selector.toList with
    | nil =>
      rw [hselector] at hc
      obtain rfl : '\x7b' = c := by simpa using hc
      rfl
    | cons d ds =>
      rw [hselector] at hc hstands
      obtain rfl : d = c := by simpa using hc
      exact (hstands.head d rfl).1
  have hbehind := List.append_cancel_left htext
  obtain rfl : blank = [] := by
    cases blank with
    | nil => rfl
    | cons d blank =>
      obtain ⟨rfl, -⟩ := List.cons.inj hbehind
      cases hblank '\x7b' List.mem_cons_self
  refine ⟨run, depth, selector.toList, [], by simp [Node.ownText], by simp, hcontent, ?_, ?_⟩
  · intro hblock
    cases hblock
  · intro behind' hbehind'
    exact hstands.anywhere (by simp [Stops]) (by simp) (fun _ => rfl) hbehind'

/-- **The head of an at-rule** ends in front of what is written behind it, perhaps with the space
behind the name if there are no parameters. -/
theorem atRule_front {name params : String} {hasBody : Bool} {run : List Token} {depth : Nat}
    {front behind close : List Char} (hstands : Statement.Stands run depth front behind)
    (hcontent : (Content.atRule name params hasBody).ReadFrom run)
    (htext : '@' :: (name.toList ++ ' ' :: (params.toList ++ close)) = front ++ behind)
    (hclose : ∀ a, params.toList ++ close = a ++ (params.toList ++ behind) →
      (∀ c ∈ a, Token.isBlank c = true) → a = [] ∧ behind = close) :
    front = (Node.ownText { content := .atRule name params hasBody }).toList ∧
      (behind = close ∨
        behind = ' ' :: close ∧ Lexeme.opensAddress (run.map Token.lexeme) = false) := by
  obtain ⟨first, hfirst, hkind, rfl, rfl⟩ := Content.readFrom_atRule hcontent
  obtain ⟨blank, rfl, hblank, hparams, hempty⟩ := hstands.exists_head hfirst hkind
  have hrest : ' ' :: ((AtRuleHead.ofTokens run).params.toList ++ close) =
      blank ++ ((AtRuleHead.ofTokens run).params.toList ++ behind) := by
    simpa using htext
  by_cases hnone : (AtRuleHead.ofTokens run).params = ""
  · obtain rfl := hempty hnone
    rw [hnone] at hrest
    refine ⟨by simp [Node.ownText, hnone], .inr ⟨by simpa using hrest.symm, ?_⟩⟩
    -- Without parameters the run is the at-word alone.
    obtain ⟨others, rfl⟩ := List.head?_eq_some_iff.mp hfirst
    obtain ⟨last, -, hlexes⟩ := hstands.lexes
    obtain ⟨cs, hcs, hspell, -, hothers⟩ := hlexes.of_cons
    replace hothers := hothers (by simp [hkind]) (by simp [hkind])
    obtain ⟨word, hword⟩ : ∃ word, first.text.toList = '@' :: word := by
      simpa [hkind, Token.Kind.Spells] using hspell
    rw [hnone, hword] at hcs
    obtain rfl : cs = [] := by simpa [AtRuleHead.ofTokens, hword] using hcs
    obtain rfl : others = [] := List.map_eq_nil_iff.mp hothers.eq_nil
    simp [Lexeme.opensAddress, Token.lexeme, hkind]
  · cases blank with
    | nil =>
      have hspace : ∀ c ∈ (AtRuleHead.ofTokens run).params.toList.head?, c = ' ' := by
        intro c hc
        obtain ⟨cs, hcs⟩ := List.head?_eq_some_iff.mp hc
        rw [List.nil_append, hcs] at hrest
        exact (List.cons.inj hrest).1.symm
      obtain ⟨c, cs, hcs⟩ := List.exists_cons_of_ne_nil
        (fun h => hnone (String.toList_inj.mp (h.trans String.toList_empty.symm)))
      have hc := hparams c (by rw [hcs]; rfl)
      rw [hspace c (by rw [hcs]; rfl)] at hc
      cases hc
    | cons c a =>
      obtain ⟨rfl, hmore⟩ := List.cons.inj hrest
      obtain ⟨rfl, rfl⟩ := hclose a hmore fun d hd => hblank d (List.mem_cons_of_mem _ hd)
      refine ⟨?_, .inl rfl⟩
      have hsome : (AtRuleHead.ofTokens run).params.isEmpty = false := by
        simpa using hnone
      simp [Node.ownText, hsome]

/-- An at-rule without a body. -/
theorem portable_atRule {name params : String} (h : (Content.atRule name params false).Reparses) :
    Node.Portable { content := .atRule name params false } := by
  obtain ⟨gap, more, htext, hgap, hhead, hmore⟩ := h.reads.exists_gap
  obtain ⟨run, depth, front, behind, rfl, hstands, hcontent, hends, -⟩ :=
    hmore.of_leaf hhead rfl rfl
  have halone : (Content.atRule name params false).alone.toList =
      '@' :: (name.toList ++ ' ' :: (params.toList ++ [';'])) := by
    simp [Content.alone]
  rw [halone] at htext
  obtain rfl : gap = [] := eq_nil_of_isGap htext hgap (by simp [Token.isGap, Token.isBlank])
  obtain ⟨rfl, hbehind⟩ := atRule_front hstands hcontent htext fun a ha hblank =>
    eq_nil_of_append_eq ha (fun _ => hblank) rfl
  have hdepth : depth = 0 := by
    rcases hbehind with rfl | ⟨rfl, -⟩ <;> simpa [Token.isBlank] using hends
  refine ⟨run, depth, _, [], (List.append_nil _).symm, by simp, hcontent, fun _ => hdepth, ?_⟩
  intro behind' hbehind'
  rcases hbehind with rfl | ⟨rfl, haddress⟩
  · exact hstands.anywhere (by simp [Stops]) (by simp) (fun _ => rfl) hbehind'
  · refine hstands.anywhere (Token.stops_cons_of_isBlank _ rfl) (by simp) ?_ hbehind'
    rw [haddress]
    rintro ⟨⟩

/-- An at-rule with a body. -/
theorem portable_atRule_block {name params : String}
    (h : (Content.atRule name params true).Reparses) :
    Node.Portable { content := .atRule name params true } := by
  obtain ⟨gap, more, htext, hgap, hhead, hmore⟩ := h.reads.exists_gap
  obtain ⟨run, depth, front, blank, inner, behind, rfl, hstands, hblank, hcontent, hinner, -⟩ :=
    hmore.of_block hhead rfl
  have halone : (Content.atRule name params true).alone.toList =
      '@' :: (name.toList ++ ' ' :: (params.toList ++ ['\x7b', '\x7d'])) := by
    simp [Content.alone]
  rw [halone] at htext
  obtain rfl : gap = [] := eq_nil_of_isGap htext hgap (by simp [Token.isGap, Token.isBlank])
  -- The block is closed, so there is no room for more blank space.
  have hne : 1 ≤ inner.length := by
    obtain ⟨front, rfl, -⟩ := hinner.exists_trivia (by simp [Forest.preorder])
    rw [List.length_append, List.length_cons]
    omega
  obtain ⟨rfl, hbehind⟩ := atRule_front hstands hcontent htext fun a ha _ => by
    have hlength := congrArg List.length ha
    simp only [List.length_append, List.length_cons, List.length_nil] at hlength
    obtain rfl : a = [] := List.length_eq_zero_iff.mp (by omega)
    exact ⟨rfl, (List.append_cancel_left ha).symm⟩
  refine ⟨run, depth, _, [], (List.append_nil _).symm, by simp, hcontent, ?_, ?_⟩
  · intro hblock
    cases hblock
  · intro behind' hbehind'
    rcases hbehind with heq | ⟨heq, haddress⟩
    · rw [heq] at hstands
      exact hstands.anywhere (by simp [Stops]) (by simp) (fun _ => rfl) hbehind'
    · rw [heq] at hstands
      refine hstands.anywhere (Token.stops_cons_of_isBlank _ rfl) (by simp) ?_ hbehind'
      rw [haddress]
      rintro ⟨⟩

theorem head_of_declaration {property value : String} {important : Bool} {run : List Token}
    (h : (Content.declaration property value important).ReadFrom run) :
    ∀ t ∈ run.head?, t.kind ≠ .atWord := by
  cases h with
  | declaration hfirst => exact hfirst

/-- A declaration. -/
theorem portable_declaration {property value : String}
    (h : (Content.declaration property value false).Reparses) :
    Node.Portable { content := .declaration property value false } := by
  obtain ⟨gap, more, htext, hgap, hhead, hmore⟩ := h.reads.exists_gap
  obtain ⟨run, depth, text, behind, rfl, hstands, hcontent, hends, -⟩ :=
    hmore.of_leaf hhead rfl rfl
  have halone : (Content.declaration property value false).alone.toList =
      property.toList ++ ':' :: (value.toList ++ [';']) := by
    simp [Content.alone]
  rw [halone] at htext
  obtain ⟨parts, hparts, rfl, rfl, himportant⟩ := Content.readFrom_declaration hcontent
  have hstops : Stops behind := (Token.Clear.of_dropWhile fun d hd =>
    (hends d hd).elim (fun h => .inr (.inr h)) fun h => .inl h.1).stops
  obtain ⟨blank, trivia, value, k, rfl, hblank, htrivia, hsplit, hended⟩ :=
    hstands.exists_parts hstops hparts
  obtain rfl : value = parts.value.toList := by
    have hvalue := splitImportant_append value
    rw [hsplit, Option.isNone_iff_eq_none.mp (Option.isSome_eq_false_iff.mp himportant)] at hvalue
    simpa using hvalue.symm
  obtain rfl : gap = [] := eq_nil_of_isGap htext hgap <| by
    intro c hc
    cases hproperty : parts.property.toList with
    | nil =>
      rw [hproperty] at hc
      obtain rfl : ':' = c := by simpa using hc
      rfl
    | cons d ds =>
      rw [hproperty] at hc
      obtain rfl : d = c := by simpa using hc
      exact (hstands.head d (by rw [hproperty]; rfl)).1
  -- What is written is the property, a colon and the value, so this is how it is read.
  have hrest : ':' :: (parts.value.toList ++ [';']) =
      blank ++ ':' :: (trivia ++ (parts.value.toList ++ behind)) := by
    simpa using htext
  obtain ⟨rfl, hrest⟩ := append_inj_of_all
    (show ∀ c ∈ ([] : List Char), Token.isBlank c = true by simp) hblank
    (show ∀ c ∈ (':' :: (parts.value.toList ++ [';'])).head?, Token.isBlank c = false by
      simp [Token.isBlank]) (by simp [Token.isBlank]) hrest
  obtain ⟨rfl, rfl⟩ := eq_nil_of_append_eq (List.cons.inj hrest).2
    htrivia.all_of_length_le_one rfl
  obtain rfl : depth = 0 := by simpa [Token.isBlank] using hends
  obtain ⟨front, colon, back, rfl, hfront, hcolon, hne, rfl⟩ :=
    DeclarationParts.ofTokens_eq_ok_iff.mp hparts
  have hproperty : (DeclarationParts.ofHalves front colon back).property =
      Token.concat (Statement.content front) := rfl
  generalize hv : (DeclarationParts.ofHalves front colon back).value = v at hstands hended ⊢
  rw [hproperty] at hstands ⊢
  rw [List.nil_append, List.nil_append] at hstands
  obtain ⟨hfrontText, hbackText, last, hback⟩ := hstands.halves hcolon
  have hfirst := head_of_declaration hcontent
  have hfrontNe : front ≠ [] := by
    rintro rfl
    exact hne rfl
  cases back with
  | nil =>
    obtain rfl : v = "" := String.toList_inj.mp hbackText.symm
    rw [hv, hproperty] at hcontent
    refine ⟨_, 0, (Token.concat (Statement.content front)).toList ++ ':' :: "".toList, [' '], ?_,
      by simp [Token.isBlank], hcontent, fun _ => rfl, ?_⟩
    · simp [Node.ownText]
    · exact fun behind hbehind =>
        hstands.anywhere (by simp [Stops]) (by simp) (fun _ => rfl) hbehind
  | cons t ts =>
    have ht : ∀ u ∈ (t :: ts).head?, u.isSpace = false := by
      intro u hu
      obtain rfl : t = u := by simpa using hu
      by_contra hspace
      obtain ⟨c, cs, hcs, hc⟩ := hback.exists_blank_head (by simpa using hspace)
      have hbehind := (hended (by rw [hcs]; simp) [';'] (by simp [Stops])).1 c (by rw [hcs]; rfl)
      rw [hc] at hbehind
      cases hbehind
    obtain ⟨space, hspace, hspaced⟩ := hstands.spaced hfrontNe hcolon (by simp) ht
    have hparts' := DeclarationParts.ofTokens_eq_ok_iff.mpr
      ⟨front, colon, space :: t :: ts, rfl, hfront, hcolon, hne, rfl⟩
    have hsame : DeclarationParts.ofHalves front colon (space :: t :: ts) =
        { DeclarationParts.ofHalves front colon (t :: ts) with
          between := (DeclarationParts.ofHalves front colon (space :: t :: ts)).between } := by
      simp [DeclarationParts.ofHalves, Token.isTrivia, hspace, Token.Kind.isTrivia]
    have hfirst' : ∀ u ∈ (front ++ colon :: space :: t :: ts).head?, u.kind ≠ .atWord := by
      rwa [List.head?_append_of_ne_nil _ hfrontNe] at hfirst ⊢
    have hcontent' := Content.ReadFrom.declaration hfirst' hparts'
    rw [hsame] at hcontent'
    dsimp only at hcontent'
    rw [hv, himportant, hproperty] at hcontent'
    refine ⟨_, 0, (Token.concat (Statement.content front)).toList ++ ':' :: ' ' :: v.toList, [], ?_,
      by simp, hcontent', fun _ => rfl, ?_⟩
    · simp [Node.ownText]
    · rw [hfrontText, hbackText] at hspaced
      intro behind hbehind
      exact hspaced.anywhere (by simp [Stops]) (by simp) (fun _ => rfl) hbehind

end Content.Reparses

/-- **A built node that is read as what it is when it stands alone can stand anywhere.** -/
theorem Content.Reparses.portable {n : Node} (h : n.content.Reparses) (hbuilt : n.content.IsBuilt)
    (hraws : n.raws = {}) : n.Portable := by
  obtain ⟨content, raws, span⟩ := n
  obtain rfl : raws = {} := hraws
  cases content with
  | root => cases hbuilt
  | rule => exact h.portable_rule
  | atRule name params hasBody =>
    cases hasBody with
    | false => exact h.portable_atRule
    | true => exact h.portable_atRule_block
  | declaration property value important =>
    cases important with
    | false => exact h.portable_declaration
    | true => cases hbuilt
  | comment => cases hbuilt

/-! ### Printing -/

/-- **A forest of nodes without gaps** that can stand anywhere; nodes without a block hold
nothing. -/
def Forest.Portable : Forest Node → Prop
  | nil => True
  | cons n children next =>
    (n.Portable ∧ n.raws = {} ∧ (n.content.opensBlock = false → children = nil)) ∧
      children.Portable ∧ next.Portable

/-- A new line is blank space. -/
theorem Layout.isBlankText_newLine (depth : Nat) : IsBlankText (newLine depth) := by
  intro c hc
  have hc' : c = '\n' ∨ depth ≠ 0 ∧ c = ' ' := by
    simpa [newLine] using hc
  rcases hc' with rfl | ⟨-, rfl⟩ <;> rfl

namespace Node

variable {n : Node} {cs rest : List Char} {f children : Forest Content}

/-- The end of a block ends a statement. -/
theorem stops_of_endsBlock {cs : List Char} (h : Token.EndsBlock cs) : Stops cs :=
  (Token.Clear.of_dropWhile fun d hd => .inr (.inr (h d hd))).stops

/-- A statement with a semicolon behind it. -/
theorem Portable.reads_closed (h : n.Portable) (hblock : n.content.opensBlock = false)
    (hcs : Reads cs f rest) :
    Reads (n.ownText.toList ++ ';' :: cs) (.cons n.content .nil f) rest := by
  obtain ⟨run, depth, body, blank, htext, hblank, hcontent, hdepth, hstands⟩ := h
  obtain rfl := hdepth hblock
  rw [htext, List.append_assoc]
  exact .closed (hstands _ (Token.Clear.punctuation hblank (.inl rfl)).stops) hblank hcontent hblock
    hcs

/-- The last statement of a block. -/
theorem Portable.reads_last (h : n.Portable) (hblock : n.content.opensBlock = false)
    (hends : Token.EndsBlock cs) (hcs : Reads cs f rest) :
    Reads (n.ownText.toList ++ cs) (.cons n.content .nil f) rest := by
  obtain ⟨run, depth, body, blank, htext, hblank, hcontent, -, hstands⟩ := h
  have hends' : Token.EndsBlock (blank ++ cs) := by
    unfold Token.EndsBlock at hends ⊢
    rwa [List.dropWhile_append_of_pos hblank]
  rw [htext, List.append_assoc]
  exact .last (hstands _ (stops_of_endsBlock hends')) hends' hcontent hblock
    (hcs.gap_append fun c hc => by simp [Token.isGap, hblank c hc])

/-- A block. -/
theorem Portable.reads_block {inner : List Char} (h : n.Portable)
    (hblock : n.content.opensBlock = true) (hinner : Reads inner children ('\x7d' :: cs))
    (hcs : Reads cs f rest) :
    Reads (n.ownText.toList ++ ' ' :: '\x7b' :: inner) (.cons n.content children f) rest := by
  obtain ⟨run, depth, body, blank, htext, hblank, hcontent, -, hstands⟩ := h
  have hblank' : ∀ c ∈ blank ++ [' '], Token.isBlank c = true := by
    intro c hc
    rcases List.mem_append.mp hc with hc | hc
    · exact hblank c hc
    · obtain rfl : c = ' ' := by simpa using hc
      rfl
  have hcut : n.ownText.toList ++ ' ' :: '\x7b' :: inner =
      body ++ (blank ++ [' '] ++ '\x7b' :: inner) := by
    simp [htext]
  rw [hcut]
  exact .block (hstands _ (Token.Clear.punctuation hblank' (.inr (.inl rfl))).stops) hblank'
    hcontent
    hblock hinner hcs

end Node

/-- What is printed between a node without gaps and its block, or what follows. -/
theorem Node.trail_of_raws {n : Node} (hraws : n.raws = {}) (hcomment : n.content.isComment = false)
    (hroot : n.content ≠ .root) (semicolon : Bool) :
    n.trail semicolon = if n.content.opensBlock then " " else Layout.semicolonIf semicolon := by
  unfold trail
  rw [hraws]
  generalize n.content = c at hcomment hroot
  cases c with
  | root => contradiction
  | rule => rfl
  | atRule name params hasBody => cases hasBody <;> simp [Content.opensBlock]
  | declaration => cases semicolon <;> simp [Content.opensBlock, Layout.semicolonIf]
  | comment => cases hcomment

/-- Only comments are no statements. -/
theorem Forest.Portable.hasStatement {f : Forest Node} (hf : f.Portable) (hne : f ≠ .nil) :
    f.hasStatement = true := by
  cases f with
  | nil => contradiction
  | cons n children next =>
    obtain ⟨⟨run, depth, body, blank, -, -, hcontent, -⟩, -⟩ := hf.1
    simp [Forest.hasStatement, hcontent.isComment_eq_false]

/-- **Nodes that can stand anywhere are printed as a text that is read as them.** -/
theorem Forest.reads_print_of_portable {f : Forest Node} (hf : f.Portable) (first : Bool)
    (depth : Nat) {behind rest : List Char} (hends : Token.EndsBlock behind)
    (hbehind : Reads behind .nil rest) :
    Reads ((f.print (.faithful id) false first depth).toList ++ behind) (f.map Node.content)
      rest := by
  induction f generalizing first depth behind rest with
  | nil => simpa [Forest.print, Forest.map] using hbehind
  | cons n children next ihChildren ihNext =>
    obtain ⟨⟨hportable, hraws, hleaf⟩, hchildren, hnext⟩ := hf
    have hspaced : n.Spaced := ⟨by simp [hraws], by simp [hraws]⟩
    obtain ⟨run, depth', body, blank, -, -, hcontent, -⟩ := id hportable
    have hroot : n.content ≠ .root := by
      intro hroot
      rw [hroot] at hcontent
      cases hcontent
    have hafter := ihNext hnext false depth hends hbehind
    rw [Forest.toList_print_cons, Node.trail_of_raws hraws hcontent.isComment_eq_false hroot]
    refine Reads.gap_append (hspaced.leading first depth) ?_
    rw [Forest.map]
    cases hblock : n.content.opensBlock with
    | false =>
      obtain rfl := hleaf hblock
      by_cases hnone : next = .nil
      · -- The last statement goes without a semicolon.
        subst hnone
        exact hportable.reads_last hblock hends hbehind
      · rw [Bool.false_or, hnext.hasStatement hnone]
        exact hportable.reads_closed hblock hafter
    | true =>
      have hfoot : IsBlankText ((Layout.faithful id).foot children.isEmpty depth n) := by
        show IsBlankText (n.raws.after.getD _)
        rw [hraws]
        cases children.isEmpty with
        | true => exact isBlankText_empty
        | false => exact Layout.isBlankText_newLine depth
      have hcloses : (Layout.faithful id).closesLast n = false := by
        show n.raws.semicolon.getD false = false
        rw [hraws]
        rfl
      have hinner := ihChildren hchildren false (depth + 1)
        (Token.endsBlock_append hfoot (by simp))
        ((Reads.nil ('\x7d' :: ((next.print (.faithful id) false false depth).toList ++
          behind))).gap_append hfoot.isGapText)
      rw [hcloses, if_pos rfl, if_pos rfl]
      exact hportable.reads_block hblock hinner hafter

/-! ### Built sheets -/

/-- **An entry that was built**: it has no gaps, its handle was given to it alone, and the class of
handles tells whether it is a container. -/
structure Entry.Built (fresh : Handle) (containers : Handle → Prop) (e : Entry) : Prop where
  raws : e.node.raws = {}
  content : e.node.content.IsBuilt
  isContainer : e.node.content.isContainer = true ↔ containers e.handle
  handle : e.handle < fresh

/-- Edits cannot undo that an entry was built. -/
theorem Entry.Built.stable (fresh : Handle) (containers : Handle → Prop) :
    Entry.Stable (Entry.Built fresh containers) where
  ne_root he hroot := by
    have hbuilt := he.content
    rw [hroot] at hbuilt
    exact hbuilt
  giveBody {e} he := by
    refine ⟨?_, ?_, ?_, he.handle⟩
    · rw [Sheet.giveBody_raws]
      exact he.raws
    · have hbuilt := he.content
      obtain ⟨handle, content, raws, span⟩ := e
      cases content <;> exact hbuilt
    · rw [Sheet.giveBody_isContainer]
      exact he.isContainer
  isContainer he he' hsame := by
    rw [Bool.eq_iff_iff, he.isContainer, he'.isContainer, hsame]

/-- Moving a node makes no handle. -/
theorem Sheet.fresh_move {s s' : Sheet} {place : Place} {h : Handle}
    (hmove : s.move place h = .ok s') : s'.fresh = s.fresh := by
  unfold Sheet.move at hmove
  cases hcontainer : s.container place with
  | error e =>
    rw [hcontainer] at hmove
    cases hmove
  | ok parent =>
    rw [hcontainer] at hmove
    dsimp only [bind, Except.bind] at hmove
    split at hmove
    · cases hmove
    · cases hmove
      unfold Sheet.moved
      cases place with
      | lastIn => rfl
      | firstIn => rfl
      | before => dsimp only; split <;> rfl
      | after => dsimp only; split <;> rfl

/-- **A sheet all of whose nodes were built.** -/
def Sheet.Built (s : Sheet) : Prop :=
  ∃ containers, s.Sound (Entry.Built s.fresh containers) { content := .root }

namespace Sheet.Built

variable {s s' : Sheet}

theorem empty : Sheet.empty.Built :=
  ⟨fun _ => False, rfl, by simp, .nil, .nil, rfl, trivial, trivial⟩

theorem move (hs : s.Built) {place : Place} {h : Handle} (hmove : s.move place h = .ok s') :
    s'.Built := by
  obtain ⟨containers, hsound⟩ := hs
  refine ⟨containers, ?_⟩
  rw [Sheet.fresh_move hmove]
  exact hsound.move (Entry.Built.stable _ _) hmove

theorem create (hs : s.Built) {content : Content} (hbuilt : content.IsBuilt) :
    (s.create content).2.Built := by
  obtain ⟨containers, hcontent, hafter, children, others, htrees, hchildren, hothers⟩ := hs
  -- No other node has the new handle, so its class can be chosen.
  let containers' (h : Handle) : Prop :=
    if h = s.fresh then content.isContainer = true else containers h
  have hmono (e : Entry) (he : Entry.Built s.fresh containers e) :
      Entry.Built (s.fresh + 1) containers' e := by
    refine ⟨he.raws, he.content, ?_, Nat.lt_succ_of_lt he.handle⟩
    simp only [containers', if_neg (Nat.ne_of_lt he.handle)]
    exact he.isContainer
  have hnew : Entry.Built (s.fresh + 1) containers' ⟨s.fresh, { content := content }⟩ :=
    ⟨rfl, hbuilt, by simp [containers'], Nat.lt_succ_self _⟩
  refine ⟨containers', hcontent, hafter, children,
    others ++ .cons ⟨s.fresh, { content := content }⟩ .nil .nil, ?_, hchildren.mono hmono, ?_⟩
  · rw [Sheet.create, htrees]
    rfl
  · exact (hothers.mono hmono).append ⟨⟨hnew, fun _ => rfl⟩, trivial, trivial⟩

/-- **One step** of building. -/
theorem apply (hs : s.Built) {build : Build} (h : build.apply s = .ok s') : s'.Built := by
  cases build with
  | createRule | createAtRule | createDeclaration =>
    cases h
    exact hs.create trivial
  | append | prepend | insertBefore | insertAfter => exact hs.move h

/-- **Any number of steps.** -/
theorem run (hs : s.Built) {builds : List Build} (h : builds.foldlM Build.apply s = .ok s') :
    s'.Built := by
  induction builds generalizing s with
  | nil =>
    cases h
    exact hs
  | cons build builds ih =>
    rw [List.foldlM_cons] at h
    cases hstep : build.apply s with
    | error e =>
      rw [hstep] at h
      cases h
    | ok s₁ =>
      rw [hstep] at h
      exact ih (hs.apply hstep) h

end Sheet.Built

/-- A forest of built nodes that are read as what they are. -/
theorem Forest.Sound.portable {fresh : Handle} {containers : Handle → Prop} {f : Forest Entry}
    (hf : f.Sound (Entry.Built fresh containers))
    (hnodes : ∀ n ∈ (f.map Entry.node).preorder, n.content.Reparses) :
    (f.map Entry.node).Portable := by
  induction f with
  | nil => trivial
  | cons e children next ihChildren ihNext =>
    obtain ⟨⟨hbuilt, hleaf⟩, hchildren, hnext⟩ := hf
    refine ⟨⟨(hnodes e.node List.mem_cons_self).portable hbuilt.content hbuilt.raws, hbuilt.raws,
        fun hblock => by rw [hleaf hblock]; rfl⟩,
      ihChildren hchildren fun n hn =>
        hnodes n (List.mem_cons_of_mem _ (List.mem_append_left _ hn)),
      ihNext hnext fun n hn => hnodes n (List.mem_cons_of_mem _ (List.mem_append_right _ hn))⟩

/-- **Built sheets print back.**  Take a sheet that is built from nothing, and let the text of each
attached node alone be read as that node.  What is printed of the sheet is accepted, with the same
nodes in the same order and nesting. -/
theorem exists_parse_print_built {builds : List Build} {s : Sheet} {source : Source}
    (hbuilds : builds.foldlM Build.apply Sheet.empty = .ok s)
    (hnodes : ∀ n ∈ s.attachedTree.children.preorder, n.content.Reparses)
    (hsource : source.text = s.attachedTree.print (Style.layout {})) :
    ∃ t, parse source false = .ok t ∧ t.map Node.content = s.attachedTree.map Node.content := by
  obtain ⟨containers, hsound⟩ := Sheet.Built.empty.run hbuilds
  obtain ⟨children, htree, hchildren⟩ := hsound.exists_attachedTree
  rw [htree] at hnodes hsource ⊢
  have hreads := (Forest.reads_print_of_portable (hchildren.portable hnodes) true 0
    (show Token.EndsBlock [] by simp [Token.EndsBlock]) (.nil []))
  have htext : source.text.toList =
      ((children.map Entry.node).print (.faithful id) false true 0).toList ++ [] := by
    rw [hsource, Style.layout_default, Tree.print, String.toList_append]
    rfl
  rw [← htext] at hreads
  exact parse_of_reads hreads

/-- Steps that build a sheet from the inside out and in no particular order. -/
def sampleBuilds : List Build :=
  [.createRule "a > b", .createDeclaration "c" "url( d )", .append 1 2, .createAtRule "media" "(x)",
    .append 3 1, .append 0 3, .createAtRule "charset" "\"y\"", .insertBefore 3 4,
    .createDeclaration "e" "", .prepend 1 5, .createAtRule "f" "", .insertAfter 2 6]

theorem exists_parse_print_built_sampleBuilds :
    ∃ s t, sampleBuilds.foldlM Build.apply Sheet.empty = .ok s ∧
      s.attachedTree.print (Style.layout {}) =
        "@charset \"y\";\n@media (x) \x7b\n    a > b \x7b\n        e: ;\n        c: url( d );\n" ++
          "        @f\n    \x7d\n\x7d" ∧
      parse { text := s.attachedTree.print (Style.layout {}) } false = .ok t ∧
        t.map Node.content = s.attachedTree.map Node.content := by
  have hrun : (sampleBuilds.foldlM Build.apply Sheet.empty).toOption.any (fun s =>
      s.attachedTree.children.preorder.all (fun n =>
        (parse { text := n.content.alone } false).toOption.any fun t =>
          t.children.map Node.content == .cons n.content .nil .nil) &&
        s.attachedTree.print (Style.layout {}) ==
          "@charset \"y\";\n@media (x) \x7b\n    a > b \x7b\n        e: ;\n        c: url( d );\n" ++
            "        @f\n    \x7d\n\x7d") = true := by
    decide +kernel
  obtain ⟨s, hs, hrun⟩ := exists_ok_of_any hrun
  obtain ⟨hnodes, hprint⟩ := Bool.and_eq_true_iff.mp hrun
  have hreparses : ∀ n ∈ s.attachedTree.children.preorder, n.content.Reparses := by
    intro n hn
    obtain ⟨t, ht, hshape⟩ := exists_ok_of_any (List.all_eq_true.mp hnodes n hn)
    exact ⟨t, ht, beq_iff_eq.mp hshape⟩
  obtain ⟨t, ht, hsame⟩ := exists_parse_print_built hs hreparses
    (show Source.text { text := s.attachedTree.print (Style.layout {}) } = _ from rfl)
  exact ⟨s, t, hs, beq_iff_eq.mp hprint, ht, hsame⟩

end LosslessCss
