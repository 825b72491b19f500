import LosslessCss.Proofs.ReadableHeads
import LosslessCss.Proofs.RootUnits

/-!
# Comments in what the compact layout prints

The compact layout leaves out the comments that are nodes, and compaction takes them out of
selectors, parameters and values.  Properties are written as they are, so a comment in a property
stays (`exists_comment_minimized`).  Where all addresses of the source close, these are the only
ones that stay, and what is printed is read without an error (`countP_isComment_minimized`).

Each node that was read stands in front of a text that goes on with its statement or ends it.  In
front of what the layout puts there the head of the node is read again: the parts that were
compacted without a comment, and the property with the comments that it has alone
(`Content.ReadFrom.readsComments`).  From there the comments are counted along the printed forest.

Addresses that do not close are a different matter.  The lexical grammar knows no strings in an
address and compaction does: of `url(x") /*k*/ "b"` it takes the comment for a part of a string, and
of `url( x')' ) '/*' */` it drops the blank space that makes the string one.

## Main Definitions

* `ReadsComments` : a text is read with a number of comments
* `Content.propertyComments`, `Node.propertyTokens` : comments in a property that is read alone, and
  its tokens in the source

## Main Statements

* `Content.ReadFrom.readsComments`
* `Forest.Standing.readsComments`
* `countP_isComment_minimized`
* `exists_comment_minimized`
-/

namespace LosslessCss

open Token (Mode Breaks isBlank)
open Value.Compact (selectorTightness valueTightness)
open Watch (plain Readable)

/-- A token is a comment. -/
def Token.isComment (t : Token) : Bool := t.kind == .comment

/-- A token is a comment. -/
def Lexeme.isComment (l : Lexeme) : Bool := l.kind == .comment

theorem Lexeme.countP_isComment_eq_zero {ls : List Lexeme} (h : ∀ l ∈ ls, l.kind ≠ .comment) :
    ls.countP isComment = 0 :=
  List.countP_eq_zero.mpr fun l hl => by simpa [isComment] using h l hl

/-- Comments are counted among the tokens as among the lexemes. -/
theorem Token.countP_isComment (ts : List Token) :
    (ts.map Token.lexeme).countP Lexeme.isComment = ts.countP isComment :=
  List.countP_map

/-- **A text is read with `n` comments** in front of another text, and leaves no address open. -/
def ReadsComments (n : Nat) (text rest : List Char) : Prop :=
  ∃ ls last, last ≠ .address ∧ Lexes .plain text rest ls last ∧ ls.countP Lexeme.isComment = n

namespace ReadsComments

variable {m n : Nat} {text more rest : List Char}

theorem nil (rest : List Char) : ReadsComments 0 [] rest :=
  ⟨[], .plain, by simp, .nil _ _, rfl⟩

/-- **Two texts with punctuation between them** have the comments of both. -/
theorem punctuated {c : Char} {kind : Token.Kind} (hkind : Token.punctuation? c = some kind)
    (hparen : kind ≠ .parenOpen) (h : ReadsComments m text (c :: more ++ rest))
    (h' : ReadsComments n more rest) : ReadsComments (m + n) (text ++ c :: more) rest := by
  obtain ⟨ls, last, hlast, hls, hcount⟩ := h
  obtain ⟨ls', last', hlast', hls', hcount'⟩ := h'
  refine ⟨_, last', hlast', hls.append (.punctuation hlast hkind hparen hls'), ?_⟩
  have hcomment : Lexeme.isComment ⟨kind, [c]⟩ = false := by
    refine beq_eq_false_iff_ne.mpr ?_
    rintro rfl
    simpa [Token.Kind.isTrivia] using (Token.kind_of_punctuation? hkind).2.2.2
  rw [List.countP_append, List.countP_cons_of_neg (by simp [hcomment]), hcount, hcount']

end ReadsComments

/-! ### Heads -/

/-- **The comments in the property of a declaration** that is read alone. -/
def Content.propertyComments : Content → Nat
  | .declaration property _ _ =>
    (tokenize { text := property } false).tokens.countP Token.isComment
  | _ => 0

section Heads

variable {run : List Token} {depth : Nat} {text ahead closing behind : List Char}

/-- The head of a rule is read without comments. -/
theorem Statement.Stands.reads_rule (h : Stands run depth text ahead)
    (hurls : plain.urlsClose false text = true) (hclosing : Closes closing (ahead ≠ []))
    (hbehind : Breaks behind) :
    ReadsComments 0 (Value.Compact.compact selectorTightness text ++ closing) behind := by
  obtain ⟨last, -, hlexes⟩ := h.lexes
  obtain ⟨hout, hreading, -⟩ := hlexes.stretch_spec hurls
  have hreadable := (compacted_compact Value.Compact.selectorTightness_harmless text).readable_closed
    Value.Compact.selectorTightness_harmless (by decide) hout hurls
    (hclosing.imp_right (And.imp_right hreading))
  obtain ⟨ls, last, hlast, hls, hcomment, -⟩ := hreadable.lexes hbehind
  exact ⟨ls, last, hlast, hls, Lexeme.countP_isComment_eq_zero hcomment⟩

/-- The head of an at-rule is read without comments. -/
theorem Statement.Stands.reads_atRule {first : Token} {rest : List Token}
    (h : Stands (first :: rest) depth text ahead) (hkind : first.kind = .atWord)
    (hurls : plain.urlsClose false (AtRuleHead.ofTokens (first :: rest)).params.toList = true)
    (hclosing : Closes closing (ahead ≠ [])) (hbehind : Breaks behind) :
    ReadsComments 0 ('@' :: (AtRuleHead.ofTokens (first :: rest)).name.toList ++
      paramsText (Value.Compact.compact valueTightness
        (AtRuleHead.ofTokens (first :: rest)).params.toList) ++ closing) behind := by
  obtain ⟨hout, hreading, -⟩ := h.params_spec hkind hurls
  obtain ⟨last, -, hlexes⟩ := h.lexes
  obtain ⟨name, hname, -, hfront⟩ := hlexes.exists_atWord hkind
  have hofName : (AtRuleHead.ofTokens (first :: rest)).name = String.ofList name := by
    simp [AtRuleHead.ofTokens, hname]
  generalize (AtRuleHead.ofTokens (first :: rest)).params.toList = params at *
  have hcompacted := compacted_compact Value.Compact.valueTightness_harmless params
  have hreadable := hcompacted.readable_closed Value.Compact.valueTightness_harmless (by decide) hout
    hurls (hclosing.imp_right (And.imp_right hreading))
  obtain ⟨ls, last', hlast, hls, hcomment, -⟩ := hreadable.lexes hbehind
  obtain ⟨gap, hgap, -, hmore, hends⟩ := hls.exists_gap
    (fun c hc => Text.isBlank_eq_false (hcompacted.head c hc))
    (hclosing.breaks hbehind).stops.endsAtWord
  refine ⟨first.lexeme :: (gap ++ ls), last', hlast, ?_, Lexeme.countP_isComment_eq_zero ?_⟩
  · rw [hofName, String.toList_ofList, List.append_assoc]
    exact hfront _ _ _ _ hends hmore
  · refine List.forall_mem_cons.mpr ⟨?_, List.forall_mem_append.mpr ⟨fun l hl => ?_, hcomment⟩⟩
    · rw [show first.lexeme.kind = .atWord from hkind]
      simp
    · rw [hgap l hl]
      simp

/-- **The head of a declaration** is read with the comments that its property has alone. -/
theorem Statement.Stands.reads_declaration {front back : List Token} {colon : Token}
    (h : Stands (front ++ colon :: back) depth text ahead) (hcolon : colon.kind = .colon)
    (hne : content front ≠ []) {property value : String} {important : Bool}
    (hproperty : Token.concat (content front) = property)
    (hvalue : (splitImportant (Token.concat (back.dropWhile Token.isTrivia)).toList).1 = value.toList)
    (himportant : (splitImportant (Token.concat (back.dropWhile Token.isTrivia)).toList).2.isSome =
      important)
    (hurls : plain.urlsClose false property.toList = true)
    (hurls' : plain.urlsClose false value.toList = true) (hclosing : Closes closing (ahead ≠ []))
    (hbehind : Breaks behind) :
    ReadsComments ((tokenize { text := property } false).tokens.countP Token.isComment)
      (property.toList ++ ':' :: (Value.Compact.compact valueTightness value.toList ++
        (compactMark important ++ closing))) behind := by
  subst hproperty
  obtain ⟨hout, hreading, -⟩ := h.value_spec hcolon rfl (by rwa [hvalue])
  rw [hvalue] at hout hreading
  have hreadable := Value.Compact.readable_value hout hurls' (hclosing.imp_right (And.imp_right
    fun hahead (hunmarked : important = false) =>
      hreading hahead (by simpa [hunmarked] using himportant)))
  obtain ⟨last, -, hlexes⟩ := h.lexes
  obtain ⟨ahead', middle, hahead', hfront⟩ := hlexes.property_spec hcolon
  have halone := congrArg (List.countP Lexeme.isComment) (hlexes.tokenize_property hcolon)
  rw [Token.countP_isComment] at halone
  have hends : ∀ t ∈ (content front).getLast?, t.isSpace = false :=
    dropTrailing_eq_self_iff.mp (dropTrailing_dropTrailing _)
  obtain ⟨ts, t, hts⟩ := (List.eq_nil_or_concat' _).resolve_left hne
  rw [halone]
  rw [hts] at hfront hends hurls ⊢
  rw [List.map_append, List.map_singleton] at hfront ⊢
  have hspace : t.lexeme.kind ≠ .space := beq_eq_false_iff_ne.mp (hends t (by simp))
  by_cases hat : t.lexeme.kind = .atWord
  · obtain ⟨ls, last', hlast, hls, hcomment⟩ := hfront.atWord_colon hahead' hat hreadable hbehind
    have hword : [t.lexeme].countP Lexeme.isComment = 0 :=
      Lexeme.countP_isComment_eq_zero (by simp [hat])
    refine ⟨_, last', hlast, hls, ?_⟩
    rw [List.countP_append, List.countP_append, Lexeme.countP_isComment_eq_zero hcomment, hword]
  · obtain ⟨ls, last', hlast, hls, hcomment, -⟩ := hreadable.lexes hbehind
    have hall := (hfront.before_colon hurls hahead' hspace hat _).append hls
    have hcolons : (⟨.colon, [':']⟩ :: ls).countP Lexeme.isComment = 0 :=
      Lexeme.countP_isComment_eq_zero (List.forall_mem_cons.mpr ⟨by simp, hcomment⟩)
    rw [List.append_assoc, List.singleton_append, List.append_assoc _ [_], List.singleton_append]
      at hall
    refine ⟨_, last', hlast, hall, ?_⟩
    rw [List.countP_append, hcolons, Nat.add_zero]

/-- **The compact head of a node** has the comments of its property and no others. -/
theorem Content.ReadFrom.readsComments {c : Content} (hread : c.ReadFrom run)
    (h : Statement.Stands run depth text ahead) (hurls : c.urlsClose = true)
    (hclosing : Closes closing (ahead ≠ [])) (hbehind : Breaks behind) :
    ReadsComments c.propertyComments (c.compactText ++ closing) behind := by
  cases hread with
  | rule =>
    have htext : (Content.rule (Token.concat run)).compactText =
        Value.Compact.compact selectorTightness text := by
      simp [compactText, Layout.compactHead, Value.compactSelector, h.text_eq]
    rw [urlsClose, h.text_eq] at hurls
    rw [htext]
    exact h.reads_rule hurls hclosing hbehind
  | atRule hfirst hkind hasBody =>
    obtain ⟨rest, rfl⟩ := List.head?_eq_some_iff.mp hfirst
    rw [compactText_atRule]
    exact h.reads_atRule hkind hurls hclosing hbehind
  | declaration _ hparts =>
    obtain ⟨front, colon, back, rfl, -, hcolon, hne, rfl⟩ :=
      DeclarationParts.ofTokens_eq_ok_iff.mp hparts
    obtain ⟨hurls, hurls'⟩ := Bool.and_eq_true_iff.mp hurls
    rw [compactText_declaration, List.append_assoc, List.cons_append, List.append_assoc]
    exact h.reads_declaration hcolon hne rfl (by simp [DeclarationParts.ofHalves])
      (by simp [DeclarationParts.ofHalves]) hurls hurls' hclosing hbehind

end Heads

/-! ### Printing -/

/-- **What the compact layout prints is read** with the comments of properties and no others. -/
theorem Forest.Standing.readsComments {f : Forest Node} {closed : Bool}
    (h : (f.map Node.content).Standing closed)
    (hurls : ∀ n ∈ f.preorder, n.content.urlsClose = true) (first : Bool) (depth : Nat)
    {rest : List Char} (hrest : ∀ c ∈ rest.head?, c = '\x7d') (hclosed : closed = true → rest = []) :
    ReadsComments (f.preorder.map (·.content.propertyComments)).sum
      (f.print (.compact id) closed first depth).toList rest := by
  induction f generalizing closed first depth rest with
  | nil => exact .nil rest
  | cons n children next ihChildren ihNext =>
    obtain ⟨hurl, hurlsRest⟩ := List.forall_mem_cons.mp hurls
    obtain ⟨hurlsChildren, hurlsNext⟩ := List.forall_mem_append.mp hurlsRest
    obtain ⟨hnode, hleaf, hchildren, hnext⟩ := h
    have hbehind := ihNext hnext hurlsNext false depth hrest hclosed
    rw [preorder, List.map_cons, List.map_append, List.sum_cons, List.sum_append, print]
    cases hcomment : n.content.isComment with
    | true =>
      have hkeeps : (Layout.compact id).keeps n = false := by simp [Layout.compact, hcomment]
      obtain ⟨hblock, hproperty⟩ : n.content.opensBlock = false ∧ n.content.propertyComments = 0 := by
        generalize n.content = c at hcomment
        cases c with
        | comment => exact ⟨rfl, rfl⟩
        | _ => cases hcomment
      obtain rfl := Forest.map_eq_nil_iff.mp (hleaf hblock)
      simpa [hkeeps, hproperty, preorder] using hbehind
    | false =>
      obtain ⟨run, d, text, ahead, hstands, hread, hend, -⟩ := hnode hcomment
      have hkeeps : (Layout.compact id).keeps n = true := by simp [Layout.compact, hcomment]
      have hroot : n.content ≠ .root := fun hroot => by
        rw [hroot] at hread
        cases hread
      rw [hkeeps, if_pos rfl, String.toList_append,
        Layout.toList_compact _ _ _ _ _ _ _ hcomment hroot, Layout.toList_compactHead n hcomment]
      have hhead (hahead : ahead ≠ []) {behind : List Char} (hbreaks : Breaks behind) :
          ReadsComments n.content.propertyComments n.content.compactText behind := by
        have hclosing := hread.readsComments hstands hurl (.inr ⟨rfl, hahead⟩) hbreaks
        rwa [List.append_nil] at hclosing
      cases hblock : n.content.opensBlock with
      | true =>
        have hahead : ahead ≠ [] := fun hnil => by
          rw [hblock] at hend
          cases (hend hnil).2.1
        have hinside := ihChildren hchildren hurlsChildren false (depth + 1)
          (show ∀ c ∈ ('\x7d' :: (next.print (.compact id) closed false depth).toList ++
            rest).head?, c = '\x7d' by simp) fun hopen => absurd hopen Bool.false_ne_true
        have hinner := hinside.punctuated (show Token.punctuation? '\x7d' = some .braceClose from rfl)
          (by simp) hbehind
        have hall := (hhead hahead (by simp [Breaks])).punctuated
          (show Token.punctuation? '\x7b' = some .braceOpen from rfl) (by simp) hinner
        simpa [Layout.compact, Nat.add_assoc] using hall
      | false =>
        obtain rfl := Forest.map_eq_nil_iff.mp (hleaf hblock)
        rw [if_neg (by simp)]
        cases hsemicolon : closed || next.hasStatement with
        | true =>
          by_cases hahead : ahead = []
          · -- The last statement of the sheet is closed by the semicolon alone.
            obtain ⟨rfl, -, hnext⟩ := hend hahead
            obtain rfl := Forest.map_eq_nil_iff.mp hnext
            have hall := hread.readsComments hstands hurl (.inl rfl)
              (show Breaks rest by simp [hclosed rfl, Breaks])
            simpa [print, preorder] using hall
          · have hall := (hhead hahead (by simp [Breaks])).punctuated
              (show Token.punctuation? ';' = some .semicolon from rfl) (by simp) hbehind
            simpa [preorder] using hall
        | false =>
          obtain ⟨rfl, hnone⟩ := Bool.or_eq_false_iff.mp hsemicolon
          have hahead : ahead ≠ [] := fun hnil => by cases (hend hnil).1
          rw [Forest.print_of_comments hnone id false false depth] at hbehind ⊢
          have hall := hhead hahead (show Breaks rest from fun c hc => .inr (.inr (hrest c hc)))
          obtain ⟨ls', last', -, hls', hcount'⟩ := hbehind
          cases show Lexes .plain [] rest ls' last' from hls'
          simpa [preorder, ← hcount'] using hall

/-! ### Properties in the source -/

/-- **The tokens of the property of a declaration**: those in front of its first colon, without
blank space at the end. -/
def Statement.propertyTokens (run : List Token) : List Token :=
  content ((content run).takeWhile (·.kind != .colon))

/-- **The tokens of the property of a node.**  Only a declaration has one. -/
def Node.propertyTokens (tokens : List Token) (n : Node) : List Token :=
  match n.content, n.span with
  | .declaration .., some span => Statement.propertyTokens (Statement.runAt tokens span.start)
  | _, _ => []

/-- The property is in front of the colon. -/
theorem Statement.propertyTokens_eq {run front back : List Token} {colon : Token}
    (hcut : content run = front ++ colon :: back) (hfront : ∀ t ∈ front, t.kind ≠ .colon)
    (hcolon : colon.kind = .colon) : propertyTokens run = content front := by
  have hother : ∀ t ∈ front, (t.kind != .colon) = true := fun t ht => by simpa using hfront t ht
  rw [propertyTokens, hcut, List.takeWhile_append_of_pos hother,
    List.takeWhile_cons_of_neg (by simp [hcolon]), List.append_nil]

/-- **The comments in the property of a node** are those among its tokens in the source. -/
theorem propertyComments_of_parse {source : Source} {t : Tree Node}
    (h : parse source false = .ok t) {n : Node} (hn : n ∈ t.preorder) :
    n.content.propertyComments =
      (n.propertyTokens (tokenize source false).tokens).countP Token.isComment := by
  obtain ⟨hfailure, -⟩ := parse_eq_ok_iff.mp h
  cases hdeclaration : n.content.isDeclaration with
  | false =>
    rw [Node.propertyTokens]
    generalize n.content = c at hdeclaration
    cases c with
    | declaration => cases hdeclaration
    | _ => rfl
  | true =>
    obtain ⟨htokens, hbefore, hfirst, hrun, hends, hspan, hparts, hcontent, -⟩ :=
      declaredIn_of_parse h hn hdeclaration
    rename_i before run after first depth stop parts
    have hcover := tokenize_cover hfailure
    obtain ⟨last, hlexes⟩ := (Reader.ofSource_fresh source false).lexes_of_drain rfl hfailure
    change Lexes .plain _ [] ((tokenize source false).tokens.map Token.lexeme) last at hlexes
    rw [htokens] at hcover hlexes
    have hstart : Statement.runAt (tokenize source false).tokens first.start = run := by
      rw [htokens]
      exact hcover.runAt_eq hfirst hrun hends
    obtain ⟨front, colon, back, hcut, hfront, hcolon, -, rfl⟩ :=
      DeclarationParts.ofTokens_eq_ok_iff.mp hparts
    have hwhole : run ++ after = front ++ colon :: (back ++ (Statement.gap run ++ after)) := by
      calc run ++ after = Statement.content run ++ (Statement.gap run ++ after) := by
            rw [← List.append_assoc, Statement.content, Statement.gap,
              dropTrailing_append_takeTrailing]
        _ = _ := by rw [hcut, List.append_assoc, List.cons_append]
    obtain ⟨-, hbehind⟩ := hlexes.cut_behind hbefore.kind_ne
    rw [hwhole] at hbehind
    have halone := congrArg (List.countP Lexeme.isComment) (hbehind.tokenize_property hcolon)
    rw [Token.countP_isComment, Token.countP_isComment] at halone
    rw [Node.propertyTokens, hcontent, hspan]
    change _ = (Statement.propertyTokens (Statement.runAt _ first.start)).countP _
    rw [hstart, Statement.propertyTokens_eq hcut hfront hcolon]
    exact halone

/-- Neither a property nor the comments in it change with the values. -/
theorem Content.propertyComments_mapValue (g : String → String) (c : Content) :
    (c.mapValue g).propertyComments = c.propertyComments := by
  cases c <;> rfl

/-- **Minimizing leaves the comments in properties, and no others**, where all addresses of the
source close.  What is printed is read without an error. -/
theorem countP_isComment_minimized {source : Source} {t : Tree Node}
    (h : parse source false = .ok t) (hurls : ∀ n ∈ t.preorder, n.content.urlsClose = true)
    {style : Style} (hstyle : style.minimize = true) {out : Source}
    (hout : out.text = t.print style.layout) :
    (tokenize out false).failure = none ∧
      (tokenize out false).tokens.countP Token.isComment =
        (t.preorder.map fun n =>
          (n.propertyTokens (tokenize source false).tokens).countP Token.isComment).sum ∧
      ((∃ u ∈ (tokenize out false).tokens, u.isComment = true) ↔
        ∃ n ∈ t.preorder, ∃ u ∈ n.propertyTokens (tokenize source false).tokens,
          u.isComment = true) := by
  obtain ⟨source', t', ht', hsame⟩ := exists_parse_value h style
  have hcontents : t'.preorder.map Node.content =
      (t.preorder.map Node.content).map (Content.mapValue style.value) := by
    have hpreorder := congrArg Tree.preorder hsame
    simpa [Tree.preorder, Tree.map, Forest.preorder_map, Function.comp_def] using hpreorder
  have hurls' : ∀ n ∈ t'.children.preorder, n.content.urlsClose = true := by
    intro n hn
    have hmem : n.content ∈ t'.preorder.map Node.content :=
      List.mem_map_of_mem (List.mem_cons_of_mem _ hn)
    rw [hcontents, List.mem_map] at hmem
    obtain ⟨c, hc, hn⟩ := hmem
    obtain ⟨m, hm, rfl⟩ := List.mem_map.mp hc
    rw [← hn, Content.urlsClose_mapValue style.rewritten_value]
    exact hurls m hm
  have hprint : out.text = t'.children.print (.compact id) true true 0 := by
    rw [hout, Style.layout, if_pos hstyle, ← Tree.print_compact_mapValue hsame]
    simp [Tree.print, Layout.compact]
  obtain ⟨hreads, hroot, -⟩ := reads_of_parse ht'
  have hstanding := hreads.standing fun hopen : true = false => absurd hopen.symm Bool.false_ne_true
  obtain ⟨ls, last, -, hls, hcount⟩ := hstanding.readsComments hurls' true 0
    (show ∀ c ∈ ([] : List Char).head?, c = '\x7d' by simp) fun _ => rfl
  rw [← hprint] at hls
  obtain ⟨hfailure, htokens⟩ := (Reader.ofSource_fresh out false).drain_of_lexes hls
  have hsum : (tokenize out false).tokens.countP Token.isComment =
      (t.preorder.map fun n =>
        (n.propertyTokens (tokenize source false).tokens).countP Token.isComment).sum := by
    calc (tokenize out false).tokens.countP Token.isComment
        = (t'.children.preorder.map (·.content.propertyComments)).sum := by
          rw [← Token.countP_isComment, ← hcount]
          exact congrArg _ htokens
      _ = ((t'.preorder.map Node.content).map Content.propertyComments).sum := by
          simp [Tree.preorder, hroot, Content.propertyComments, Function.comp_def]
      _ = (t.preorder.map (·.content.propertyComments)).sum := by
          rw [hcontents, List.map_map, List.map_map]
          exact congrArg List.sum (List.map_congr_left fun n _ => n.content.propertyComments_mapValue _)
      _ = _ := congrArg List.sum (List.map_congr_left fun n hn => propertyComments_of_parse h hn)
  refine ⟨hfailure, hsum, ?_⟩
  rw [← List.countP_pos_iff, hsum, List.sum_pos_iff_exists_pos_nat]
  simp [List.countP_pos_iff]

/-- Comments in a property, between all other parts, and texts that only look like comments. -/
def commentedSheet : Source where
  text := "@m /*a*/ ( x ) \x7b /*b*/ s /*c*/ , t[u='/*'] \x7b p /*d*/ q /*e*/ : /*f*/ v " ++
    "/*g*/ \"/*h*/\" url(y/*z*/'/*') /*i*/ ! important ; w\\/*j*/ : 16px \x7d \x7d"

theorem countP_isComment_minimized_commentedSheet :
    ∃ t, ∃ out : Source, parse commentedSheet false = .ok t ∧
      (∀ n ∈ t.preorder, n.content.urlsClose = true) ∧ smallestStyle.minimize = true ∧
      out.text = t.print smallestStyle.layout ∧ (tokenize out false).failure = none ∧
      (tokenize out false).tokens.countP Token.isComment = 2 ∧
      (t.preorder.map fun n => (n.propertyTokens
        (tokenize commentedSheet false).tokens).countP Token.isComment).sum = 2 ∧
      ∃ n ∈ t.preorder, ∃ u ∈ n.propertyTokens (tokenize commentedSheet false).tokens,
        u.isComment = true := by
  have hrun : (parse commentedSheet false).toOption.any (fun t =>
      t.preorder.all (·.content.urlsClose) &&
        (tokenize { text := t.print smallestStyle.layout } false).tokens.countP Token.isComment ==
          2) = true := by
    decide +kernel
  obtain ⟨t, ht, hrun⟩ := exists_ok_of_any hrun
  rw [Bool.and_eq_true, List.all_eq_true, beq_iff_eq] at hrun
  obtain ⟨hurls, hcount⟩ := hrun
  obtain ⟨hread, hsum, hexists⟩ := countP_isComment_minimized ht hurls
    (show smallestStyle.minimize = true from rfl)
    (show ({ text := t.print smallestStyle.layout } : Source).text = _ from rfl)
  refine ⟨t, _, ht, hurls, rfl, rfl, hread, hcount, hsum.symm.trans hcount,
    hexists.mp (List.countP_pos_iff.mp ?_)⟩
  rw [hcount]
  decide

/-- A comment in a property. -/
def propertySheet : Source where
  text := "x\x7ba/**/:b\x7d"

/-- **Minimizing does not leave out every comment.** -/
theorem exists_comment_minimized :
    ∃ t, parse propertySheet false = .ok t ∧
      t.print (Style.layout { minimize := true }) = propertySheet.text ∧
      (tokenize propertySheet false).failure = none ∧
      ∃ u ∈ (tokenize propertySheet false).tokens, u.kind = .comment := by
  have hrun : (parse propertySheet false).toOption.any (fun t =>
      t.print (Style.layout { minimize := true }) == propertySheet.text) = true := by
    decide +kernel
  obtain ⟨t, ht, hprint⟩ := exists_ok_of_any hrun
  exact ⟨t, ht, by simpa using hprint, by decide +kernel, by decide +kernel⟩

-- Without a comment in the source: a string becomes one where a blank in front of it is dropped.
example : (parse { text := "a:url( x')' ) '/*' */ z" } false).toOption.any (fun t =>
    (tokenize { text := t.print (Style.layout { minimize := true }) } false).tokens.any
      Token.isComment) = true := by decide +kernel

end LosslessCss
