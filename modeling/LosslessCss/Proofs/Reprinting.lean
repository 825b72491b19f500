import LosslessCss.Proofs.CompactLengths
import LosslessCss.Proofs.Idempotence
import LosslessCss.Proofs.RootUnits
import LosslessCss.Proofs.SteadyNodes

/-!
# Printing what was printed

What a style prints is read and printed again in the same style.  The faithful layout prints it as
it is, with and without root units: a converted sheet is read as the sheet with the converted values
(`exists_parse_mapValue`), in which there is nothing more to convert.  The compact layout does so if
the nodes are steady and compaction makes no lengths (`Tree.isSteady`): then it is read as the
compacted tree, of which nothing more can be left out.

Where nodes are not steady, the second pass can print something else (`exists_minimized_twice_ne`).

## Main Definitions

* `Tree.isSteady` : the sheets that the compact layout prints so that they are read again

## Main Statements

* `Forest.print_compacted`
* `print_print`
-/

namespace LosslessCss

open Value

/-! ### Values -/

/-- Converting twice changes nothing more, whatever the root unit. -/
theorem Style.value_value (style : Style) (text : String) :
    style.value (style.value text) = style.value text := by
  unfold Style.value
  split
  · by_cases hroot : style.rootSize = 0
    · simp [Value.pxToRem, hroot]
    · exact pxToRem_pxToRem _ _ text hroot
  · rfl

/-- **A node that is printed in the same way again.** -/
def Content.isSteadyIn (style : Style) (c : Content) : Bool :=
  c.isSteady && (!style.pxToRem || match c with
    | .declaration _ value _ => keepsLengths value
    | _ => true)

/-- **A compacted node has nothing to convert** if the node has nothing to convert. -/
theorem Content.mapValue_compacted {style : Style} {c : Content} (h : c.isSteadyIn style = true)
    (hvalue : c.mapValue style.value = c) : c.compacted.mapValue style.value = c.compacted := by
  cases c with
  | declaration property value important =>
    obtain ⟨-, hkeeps⟩ := Bool.and_eq_true_iff.mp h
    have hsame : style.value value = value := by
      rw [mapValue] at hvalue
      injection hvalue
    rw [Style.value] at hsame
    rw [compacted, mapValue, Style.value]
    split
    · next hpx =>
      rw [if_pos hpx] at hsame
      rw [hpx, Bool.not_true, Bool.false_or] at hkeeps
      rw [Value.pxToRem_compactValue hsame hkeeps]
    · rfl
  | _ => rfl

/-- A node with its values converted has nothing to convert. -/
theorem Content.mapValue_mapValue_value (style : Style) (c : Content) :
    (c.mapValue style.value).mapValue style.value = c.mapValue style.value := by
  cases c <;> simp [mapValue, style.value_value]

/-- **A sheet that the compact layout prints so that it is read again.**  With their values
converted, all nodes are steady and keep their lengths, and no statement that ends the sheet without
a block leaves a parenthesis or a bracket open. -/
def Tree.isSteady (style : Style) (t : Tree Node) : Bool :=
  t.preorder.all (fun n => (n.content.mapValue style.value).isSteadyIn style) &&
    t.children.tops.all fun n => n.content.opensBlock || n.content.isComment ||
      (n.content.mapValue style.value).closesAll

/-- **A sheet with the converted values** has steady nodes with nothing to convert, and closes what
it opens. -/
theorem Tree.isSteady_spec {style : Style} {t t' : Tree Node} (h : t.isSteady style = true)
    (hsame : t'.map Node.content = t.map (fun n => n.content.mapValue style.value)) :
    (∀ n ∈ t'.children.preorder, n.content.isSteadyIn style = true ∧
      n.content.mapValue style.value = n.content) ∧
      ∀ n ∈ t'.children.tops, n.content.opensBlock = false → n.content.isComment = false →
        n.content.closesAll = true := by
  obtain ⟨hnodes, hcloses⟩ := Bool.and_eq_true_iff.mp h
  rw [List.all_eq_true] at hnodes hcloses
  have hforest : t'.children.map Node.content =
      t.children.map (fun n => n.content.mapValue style.value) := congrArg Tree.children hsame
  constructor
  · intro n hn
    have hmem := List.mem_map_of_mem (f := Node.content) hn
    rw [← Forest.preorder_map, hforest, Forest.preorder_map] at hmem
    obtain ⟨m, hm, heq⟩ := List.mem_map.mp hmem
    rw [← heq]
    exact ⟨hnodes m (List.mem_cons_of_mem _ hm), Content.mapValue_mapValue_value style m.content⟩
  · intro n hn hblock hcomment
    have hmem := List.mem_map_of_mem (f := Node.content) hn
    rw [← Forest.tops_map, hforest, Forest.tops_map] at hmem
    obtain ⟨m, hm, heq⟩ := List.mem_map.mp hmem
    rw [← heq, Content.opensBlock_mapValue] at hblock
    rw [← heq, Content.isComment_mapValue] at hcomment
    rw [← heq]
    simpa [hblock, hcomment] using hcloses m hm

/-! ### Printing twice -/

/-- The head of a compacted node is written like that of the node. -/
theorem Layout.compactHead_compacted {n n' : Node} (h : n'.content = n.content.compacted)
    (hcomment : n.content.isComment = false) (semicolon : Bool) :
    compactHead id semicolon n' = compactHead id semicolon n := by
  rw [compactHead, compactHead, h]
  generalize n.content = c at hcomment
  cases c with
  | comment => cases hcomment
  | root => rfl
  | rule selector => exact compactSelector_compactSelector selector
  | atRule name params hasBody =>
    simp only [Content.compacted, compactParams, compactValue_compactValue]
    rfl
  | declaration property value important =>
    simp only [Content.compacted, id, compactValue_compactValue]

/-- The compact layout has no gap in front of the first node either. -/
theorem Forest.print_compact_first (f : Forest Node) (closed first : Bool) (depth : Nat) :
    f.print (.compact id) closed first depth = f.print (.compact id) closed false depth := by
  cases f <;> rfl

/-- **A compacted forest is printed like the forest.** -/
theorem Forest.print_compacted {f g : Forest Node}
    (h : f.map Node.content = (g.map Node.content).compacted) (closed first : Bool) (depth : Nat) :
    f.print (.compact id) closed first depth = g.print (.compact id) closed first depth ∧
      f.hasStatement = g.hasStatement := by
  induction g generalizing f closed first depth with
  | nil =>
    cases f with
    | nil => exact ⟨rfl, rfl⟩
    | cons => cases h
  | cons n children next ihChildren ihNext =>
    rw [Forest.map, compacted] at h
    cases hcomment : n.content.isComment with
    | true =>
      rw [if_pos hcomment] at h
      obtain ⟨hprint, hstatement⟩ := ihNext h closed first depth
      refine ⟨?_, by simp [hasStatement, hcomment, hstatement]⟩
      have hkeeps : (Layout.compact id).keeps n = false := by simp [Layout.compact, hcomment]
      rw [hprint, Forest.print_compact_first, Forest.print, hkeeps]
      simp
    | false =>
      rw [if_neg (by simp [hcomment])] at h
      cases f with
      | nil => cases h
      | cons n' children' next' =>
        injection h with hn hchildren hnext
        obtain ⟨hprint, hstatement⟩ := ihNext hnext closed false depth
        obtain ⟨hinner, -⟩ := ihChildren hchildren false false (depth + 1)
        have hcomment' : n'.content.isComment = false := by
          rw [hn]
          generalize n.content = c at hcomment
          cases c <;> first | rfl | cases hcomment
        have hblock : n'.content.opensBlock = n.content.opensBlock := by
          rw [hn, Content.opensBlock_compacted]
        refine ⟨?_, by simp [hasStatement, hcomment, hcomment']⟩
        rw [Forest.print, Forest.print, hprint, hstatement]
        simp only [Layout.compact, Layout.wrap, hcomment, hcomment', hblock,
          Layout.compactHead_compacted hn hcomment]
        have hsame : children'.print (.compact id) false false (depth + 1) =
          children.print (.compact id) false false (depth + 1) := hinner
        simp only [Layout.compact] at hsame
        rw [hsame]

/-- The nodes that the compact layout keeps are those of the forest, compacted. -/
theorem Forest.exists_of_mem_compacted {f : Forest Content} {c : Content}
    (h : c ∈ f.compacted.preorder) : ∃ c' ∈ f.preorder, c = c'.compacted := by
  induction f with
  | nil => cases h
  | cons d children next ihChildren ihNext =>
    rw [compacted] at h
    split at h
    · obtain ⟨c', hc', hc⟩ := ihNext h
      exact ⟨c', List.mem_cons_of_mem _ (List.mem_append_right _ hc'), hc⟩
    · rcases List.mem_cons.mp h with rfl | h
      · exact ⟨d, List.mem_cons_self, rfl⟩
      · rcases List.mem_append.mp h with h | h
        · obtain ⟨c', hc', hc⟩ := ihChildren h
          exact ⟨c', List.mem_cons_of_mem _ (List.mem_append_left _ hc'), hc⟩
        · obtain ⟨c', hc', hc⟩ := ihNext h
          exact ⟨c', List.mem_cons_of_mem _ (List.mem_append_right _ hc'), hc⟩

/-- A tree in which there is nothing to convert is printed as it is. -/
theorem Tree.map_mapValue_eq_self {t : Tree Node} {g : String → String}
    (h : ∀ c ∈ (t.map Node.content).preorder, c.mapValue g = c) : t.map (Node.mapValue g) = t := by
  have hnode {n : Node} (hn : n ∈ t.preorder) : n.mapValue g = n := by
    rw [Node.mapValue, h n.content]
    simpa [Tree.preorder, Tree.map, Forest.preorder_map] using List.mem_map_of_mem hn
  rw [Tree.map, hnode List.mem_cons_self,
    Forest.map_eq_self fun n hn => hnode (List.mem_cons_of_mem _ hn)]

/-- **The faithful layout prints again what it printed**, with the same conversion. -/
theorem print_print_faithful {source source' : Source} {t : Tree Node} {style : Style}
    (h : parse source false = .ok t) (htext : source'.text = t.print (.faithful style.value)) :
    ∃ t', parse source' false = .ok t' ∧ t'.print (.faithful style.value) = source'.text := by
  obtain ⟨t', ht', hsame⟩ := exists_parse_mapValue style.rewritten_value h htext
  refine ⟨t', ht', ?_⟩
  rw [← Tree.print_map (Layout.faithful_mimics style.value), Tree.map_mapValue_eq_self,
    Tree.print_faithful_of_parse ht']
  intro c hc
  rw [hsame] at hc
  obtain ⟨n, -, rfl⟩ : ∃ n ∈ t.preorder, c = n.content.mapValue style.value := by
    simpa [Tree.preorder, Tree.map, Forest.preorder_map, eq_comm] using hc
  exact Content.mapValue_mapValue_value style n.content

/-- **The compact layout prints again what it printed** of a steady sheet, with the same
conversion. -/
theorem print_print_compact {source source' : Source} {t : Tree Node} {style : Style}
    (h : parse source false = .ok t) (hsteady : t.isSteady style = true)
    (htext : source'.text = t.print (.compact style.value)) :
    ∃ t', parse source' false = .ok t' ∧ t'.print (.compact style.value) = source'.text := by
  -- What is converted first can be minimized without converting anything.
  obtain ⟨source₁, t₁, ht₁, hsame₁⟩ := exists_parse_value h style
  obtain ⟨hnodes, hcloses⟩ := Tree.isSteady_spec hsteady hsame₁
  have hstanding := (reads_of_parse ht₁).1.standing fun hopen : true = false =>
    absurd hopen.symm Bool.false_ne_true
  have hcompactable := hstanding.compactable (fun n hn =>
    (Bool.and_eq_true_iff.mp (hnodes n hn).1).1) fun _ => hcloses
  have hreads := hcompactable.reads_print true 0 (by simp) (.nil [])
  have hprint : t.print (.compact style.value) = t₁.print (.compact id) :=
    (Tree.print_compact_mapValue hsame₁).symm
  have htree : t₁.print (.compact id) = t₁.children.print (.compact id) true true 0 := by
    simp [Tree.print, Layout.compact]
  rw [List.append_nil, ← htree, ← hprint, ← htext] at hreads
  obtain ⟨t', ht', hshape⟩ := parse_of_reads hreads
  refine ⟨t', ht', ?_⟩
  have hforest : t'.children.map Node.content = (t₁.children.map Node.content).compacted :=
    congrArg Tree.children hshape
  calc t'.print (.compact style.value)
      = (t'.map (Node.mapValue style.value)).print (.compact id) :=
        (Tree.print_map (Layout.compact_mimics style.value) t').symm
    _ = t'.print (.compact id) := by
        rw [Tree.map_mapValue_eq_self]
        intro c hc
        rw [hshape] at hc
        rcases List.mem_cons.mp hc with rfl | hc
        · rfl
        · obtain ⟨c', hc', rfl⟩ := Forest.exists_of_mem_compacted hc
          rw [Forest.preorder_map] at hc'
          obtain ⟨n, hn, rfl⟩ := List.mem_map.mp hc'
          exact Content.mapValue_compacted (hnodes n hn).1 (hnodes n hn).2
    _ = t₁.print (.compact id) := by
        rw [Tree.print, Tree.print]
        exact congrArg (· ++ "") (Forest.print_compacted hforest true true 0).1
    _ = source'.text := by rw [htext, hprint]

/-- **Printing what was printed changes nothing more.**  What the faithful layout prints is accepted
again and printed as it is, with and without root units; so is what the compact layout prints, if the
sheet is steady. -/
theorem print_print {source source' : Source} {t : Tree Node} {style : Style}
    (h : parse source false = .ok t) (hsteady : style.minimize = true → t.isSteady style = true)
    (htext : source'.text = t.print style.layout) :
    ∃ t', parse source' false = .ok t' ∧ t'.print style.layout = source'.text := by
  cases hminimize : style.minimize with
  | false =>
    have hlayout : style.layout = .faithful style.value := by simp [Style.layout, hminimize]
    rw [hlayout] at htext ⊢
    exact print_print_faithful h htext
  | true =>
    have hlayout : style.layout = .compact style.value := by simp [Style.layout, hminimize]
    rw [hlayout] at htext ⊢
    exact print_print_compact h (hsteady hminimize) htext

/-- Urls, comments, lengths, what only looks like a length, and a statement without an end. -/
def addressedSheet : Source where
  text := "@import  url( x.css )  ;.a , b[c='url( z'] \x7b w : -16px/*k*/ calc( 8px ) , .5px " ++
    "! important ;\nu : url(y/*q*/'z') , '4px' url(a-16px.png) x16px \x7d " ++
    "@media ( x ) \x7b /*m*/ \x7d v : 24px  /*z*/ , URL(q)"

theorem print_print_addressedSheet :
    ∃ t t', ∃ out : Source, parse addressedSheet false = .ok t ∧ smallestStyle.minimize = true ∧
      t.isSteady smallestStyle = true ∧ out.text = t.print smallestStyle.layout ∧
      out.text = "@import url(x.css);.a,b[c='url( z']\x7bw:-1rem calc(0.5rem),0.03125rem!important;" ++
        "u:url(y 'z'),'4px' url(a-16px.png) x16px\x7d@media (x)\x7b\x7dv:1.5rem,URL(q);" ∧
      parse out false = .ok t' ∧ t'.print smallestStyle.layout = out.text := by
  have hrun : (parse addressedSheet false).toOption.any (fun t =>
      t.isSteady smallestStyle && t.print smallestStyle.layout ==
        "@import url(x.css);.a,b[c='url( z']\x7bw:-1rem calc(0.5rem),0.03125rem!important;" ++
          "u:url(y 'z'),'4px' url(a-16px.png) x16px\x7d@media (x)\x7b\x7dv:1.5rem,URL(q);") = true := by
    decide +kernel
  obtain ⟨t, ht, hrun⟩ := exists_ok_of_any hrun
  obtain ⟨hsteady, hprint⟩ := Bool.and_eq_true_iff.mp hrun
  obtain ⟨t', ht', hagain⟩ := print_print ht (fun _ => hsteady)
    (show ({ text := t.print smallestStyle.layout } : Source).text = _ from rfl)
  exact ⟨t, t', _, ht, rfl, hsteady, rfl, beq_iff_eq.mp hprint, ht', hagain⟩

/-- A declaration that ends in a backslash. -/
def backslashSheet : Source where
  text := "a:b\\"

/-- **The compact layout is not idempotent**: the semicolon that it adds is escaped, so the second
pass adds another one. -/
theorem exists_minimized_twice_ne :
    ∃ t t', parse backslashSheet false = .ok t ∧
      t.print (Style.layout { minimize := true }) = "a:b\\;" ∧
      parse { text := "a:b\\;" } false = .ok t' ∧
        t'.print (Style.layout { minimize := true }) = "a:b\\;;" := by
  have hfirst : (parse backslashSheet false).toOption.any
      (fun t => t.print (Style.layout { minimize := true }) == "a:b\\;") = true := by
    decide +kernel
  have hsecond : (parse { text := "a:b\\;" } false).toOption.any
      (fun t => t.print (Style.layout { minimize := true }) == "a:b\\;;") = true := by
    decide +kernel
  obtain ⟨t, ht, hprint⟩ := exists_ok_of_any hfirst
  obtain ⟨t', ht', hprint'⟩ := exists_ok_of_any hsecond
  exact ⟨t, t', ht, beq_iff_eq.mp hprint, ht', beq_iff_eq.mp hprint'⟩

end LosslessCss
