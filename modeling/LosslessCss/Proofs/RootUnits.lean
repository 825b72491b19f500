import LosslessCss.Proofs.Lengths
import LosslessCss.Proofs.Revaluing

/-!
# Converting lengths first and minimizing later

Lengths are converted while a sheet is printed.  It makes no difference whether the compact layout
does this, or the faithful layout does it first and the compact layout prints what is read of that:
a converted sheet is read as the sheet with the converted values (`exists_parse_print_converted`).

Converting while printing is printing a tree with converted values.  This is one instance of a
layout that prints of changed nodes what another one prints of the nodes themselves
(`Layout.Mimics`); that the compact layout sees nothing but the contents of nodes is another one.

## Main Definitions

* `Layout.Mimics` : a layout prints of changed nodes what another one prints of the nodes

## Main Statements

* `Tree.print_map`, `Tree.print_compact_congr`
* `exists_parse_mapValue` : what rewrites lengths only can be read again
* `exists_parse_print_converted`
-/

namespace LosslessCss

/-! ### Layouts that print alike -/

/-- **One layout prints of changed nodes** what another one prints of the nodes themselves. -/
structure Layout.Mimics (l l' : Layout) (m : Node → Node) : Prop where
  isComment (n : Node) : (m n).content.isComment = n.content.isComment
  opensBlock (n : Node) : (m n).content.opensBlock = n.content.opensBlock
  keeps (n : Node) : l.keeps (m n) = l'.keeps n
  leading (first : Bool) (depth : Nat) (n : Node) :
    l.leading first depth (m n) = l'.leading first depth n
  head (semicolon : Bool) (n : Node) (h : l'.keeps n = true) :
    l.head semicolon (m n) = l'.head semicolon n
  foot (isEmpty : Bool) (depth : Nat) (n : Node) : l.foot isEmpty depth (m n) = l'.foot isEmpty depth n
  closesLast (n : Node) : l.closesLast (m n) = l'.closesLast n
  closesLastOfSheet (n : Node) : l.closesLastOfSheet (m n) = l'.closesLastOfSheet n
  footOfSheet (n : Node) : l.footOfSheet (m n) = l'.footOfSheet n

section Mimics

variable {l l' : Layout} {m : Node → Node} (h : l.Mimics l' m)

include h

theorem Forest.print_map (f : Forest Node) (closed first : Bool) (depth : Nat) :
    (f.map m).print l closed first depth = f.print l' closed first depth ∧
      (f.map m).hasStatement = f.hasStatement := by
  induction f generalizing closed first depth with
  | nil => exact ⟨rfl, rfl⟩
  | cons n children next ihChildren ihNext =>
    obtain ⟨hnext, hstatement⟩ := ihNext closed false depth
    obtain ⟨hchildren, -⟩ := ihChildren (l'.closesLast n) false (depth + 1)
    have hempty : (children.map m).isEmpty = children.isEmpty := by cases children <;> rfl
    refine ⟨?_, by rw [map, hasStatement, hasStatement, h.isComment, hstatement]⟩
    rw [map, print, print, hnext, h.keeps]
    cases hkeeps : l'.keeps n with
    | false => rfl
    | true =>
      simp only [Layout.wrap, h.leading, h.head _ n hkeeps, h.opensBlock, h.foot, h.closesLast,
        hstatement, hempty, hchildren]

/-- **A tree of changed nodes** is printed like the tree. -/
theorem Tree.print_map (t : Tree Node) : (t.map m).print l = t.print l' := by
  rw [Tree.print, Tree.print, Tree.map, h.footOfSheet, h.closesLastOfSheet,
    (Forest.print_map h t.children _ true 0).1]

end Mimics

/-- Converting values while printing is printing the tree with the converted values. -/
theorem Layout.faithful_mimics (g : String → String) :
    (faithful id).Mimics (faithful g) (Node.mapValue g) where
  isComment n := n.content.isComment_mapValue g
  opensBlock n := n.content.opensBlock_mapValue g
  keeps _ := rfl
  leading _ _ _ := rfl
  head semicolon n _ := by
    obtain ⟨content, raws, span⟩ := n
    cases content <;> rfl
  foot _ _ _ := rfl
  closesLast _ := rfl
  closesLastOfSheet _ := rfl
  footOfSheet _ := rfl

/-- Converting values while minimizing is minimizing the tree with the converted values. -/
theorem Layout.compact_mimics (g : String → String) :
    (compact id).Mimics (compact g) (Node.mapValue g) where
  isComment n := n.content.isComment_mapValue g
  opensBlock n := n.content.opensBlock_mapValue g
  keeps n := congrArg not (n.content.isComment_mapValue g)
  leading _ _ _ := rfl
  head semicolon n _ := by
    obtain ⟨content, raws, span⟩ := n
    cases content <;> rfl
  foot _ _ _ := rfl
  closesLast _ := rfl
  closesLastOfSheet _ := rfl
  footOfSheet _ := rfl

/-- A node without gaps. -/
def Content.bareNode (c : Content) : Node := { content := c }

/-- The compact layout takes no notice of gaps. -/
theorem Layout.compact_mimics_bare (g : String → String) :
    (compact g).Mimics (compact g) fun n => n.content.bareNode where
  isComment _ := rfl
  opensBlock _ := rfl
  keeps _ := rfl
  leading _ _ _ := rfl
  head semicolon n hkeeps := by
    obtain ⟨content, raws, span⟩ := n
    cases content <;> first | rfl | cases hkeeps
  foot _ _ _ := rfl
  closesLast _ := rfl
  closesLastOfSheet _ := rfl
  footOfSheet _ := rfl

/-- **Trees with the same contents** have the same compact form. -/
theorem Tree.print_compact_congr {t t' : Tree Node}
    (h : t'.map Node.content = t.map Node.content) (g : String → String) :
    t'.print (.compact g) = t.print (.compact g) := by
  have hbare (t : Tree Node) :
      t.map (fun n => n.content.bareNode) = (t.map Node.content).map Content.bareNode := by
    rw [Tree.map, Tree.map, Tree.map, Forest.map_map]
  rw [← Tree.print_map (Layout.compact_mimics_bare g) t,
    ← Tree.print_map (Layout.compact_mimics_bare g) t', hbare, hbare, h]

/-! ### Converted sheets -/

/-- **Printing a tree with converted values compactly** converts them while it is printed. -/
theorem Tree.print_compact_mapValue {t t' : Tree Node} {g : String → String}
    (h : t'.map Node.content = t.map (fun n => n.content.mapValue g)) :
    t'.print (.compact id) = t.print (.compact g) := by
  have hsame : t'.map Node.content = (t.map (Node.mapValue g)).map Node.content := by
    rw [h, Tree.map, Tree.map, Tree.map, Forest.map_map]
    rfl
  rw [Tree.print_compact_congr hsame, Tree.print_map (Layout.compact_mimics g)]

/-- **What is printed faithfully with converted values is read again**, as the tree with the
converted values. -/
theorem exists_parse_mapValue {source source' : Source} {t : Tree Node} {g : String → String}
    (hvalue : ∀ value, Rewritten none value.toList (g value).toList)
    (h : parse source false = .ok t) (htext : source'.text = t.print (.faithful g)) :
    ∃ t', parse source' false = .ok t' ∧
      t'.map Node.content = t.map (fun n => n.content.mapValue g) := by
  obtain ⟨hreads, hcontent, hafter, hnodes⟩ := reads_of_parse h
  have hlegible := hreads.legible rfl hnodes
  have hsettled : t.Settled :=
    (Tree.exists_parse_print_iff hcontent hafter hlegible
      (Tree.print_faithful_of_parse h).symm).mp ⟨t, h, rfl⟩
  generalize hconverted : t.map (Node.mapValue g) = converted
  have hlayout : source'.text = converted.print (.faithful id) := by
    rw [htext, ← hconverted, Tree.print_map (Layout.faithful_mimics _)]
  obtain ⟨t', ht', hsame⟩ : ∃ t', parse source' false = .ok t' ∧
      t'.map Node.content = converted.map Node.content := by
    refine (Tree.exists_parse_print_iff ?_ ?_ ?_ hlayout).mpr ?_ <;> subst hconverted
    · rw [Tree.map, Node.mapValue, hcontent]
      rfl
    · exact hafter
    · exact hlegible.mapValue hvalue
    · exact Forest.Settled.mapValue hvalue hlegible hsettled (.refl _)
  refine ⟨t', ht', ?_⟩
  rw [hsame, ← hconverted, Tree.map, Tree.map, Tree.map, Forest.map_map]
  rfl

/-- **What is printed in root units is read again**, with the values converted, and minimizing what
was read prints what minimizing and converting at once prints. -/
theorem exists_parse_print_converted {source source' : Source} {t : Tree Node} {root : Nat}
    (h : parse source false = .ok t)
    (htext : source'.text = t.print (Style.layout { pxToRem := true, rootSize := root })) :
    ∃ t', parse source' false = .ok t' ∧
      t'.map Node.content = t.map (fun n => n.content.mapValue (Value.pxToRem root)) ∧
      t'.print (Style.layout { minimize := true }) =
        t.print (Style.layout { minimize := true, pxToRem := true, rootSize := root }) := by
  obtain ⟨t', ht', hsame⟩ := exists_parse_mapValue (Value.rewritten_pxToRem root) h htext
  exact ⟨t', ht', hsame, Tree.print_compact_mapValue hsame⟩

/-- **A style rewrites lengths** and nothing else. -/
theorem Style.rewritten_value (style : Style) (value : String) :
    Rewritten none value.toList (style.value value).toList := by
  rw [Style.value]
  split
  · exact Value.rewritten_pxToRem _ value
  · exact .refl _ _

/-- **What a style does to values can be done first**: what is read of a source of its own has the
values that the style prints. -/
theorem exists_parse_value {source : Source} {t : Tree Node} (h : parse source false = .ok t)
    (style : Style) :
    ∃ source' t', parse source' false = .ok t' ∧
      t'.map Node.content = t.map (fun n => n.content.mapValue style.value) :=
  ⟨{ text := _ }, exists_parse_mapValue style.rewritten_value h rfl⟩

/-- The style that changes most. -/
def smallestStyle : Style where
  minimize := true
  pxToRem := true

/-- A sheet with lengths behind signs, in words, in an address, in a comment and in a string. -/
def lengthySheet : Source where
  text := "@m 16px;a\x7b b : f(1)+16px !+8px url(4px) ! important ; c:+0px/*2px*/'1px'x-1px\x7d"

theorem exists_parse_print_converted_lengthySheet :
    ∃ t t', parse lengthySheet false = .ok t ∧
      parse { text := t.print (Style.layout { pxToRem := true, rootSize := 16 }) } false = .ok t' ∧
      t'.map Node.content = t.map (fun n => n.content.mapValue (Value.pxToRem 16)) ∧
      t'.print (Style.layout { minimize := true }) =
        t.print (Style.layout { minimize := true, pxToRem := true, rootSize := 16 }) := by
  obtain ⟨t, ht⟩ := exists_ok_of_isOk (by decide +kernel : (parse lengthySheet false).isOk = true)
  obtain ⟨t', ht', hsame, hprint⟩ := exists_parse_print_converted ht
    (show ({ text := t.print (Style.layout { pxToRem := true, rootSize := 16 }) } : Source).text = _
      from rfl)
  exact ⟨t, t', ht, ht', hsame, hprint⟩

end LosslessCss
