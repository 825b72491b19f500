import LosslessCss.Proofs.Traversals

/-!
# What the compact layout does not look at

Two sheets that differ in nothing but comments, gaps and places have one compact form
(`Sheet.write_compact_congr`), whatever is done to values on the way.  Gaps and places are fields that
the compact layout does not read, so its text is the same for nodes that have nothing but their
contents.  Comments do stand among the children, and whether a statement is the last one of its block
depends on what stands behind it.  But there only statements count, so the text is the same for the
forest without the comments (`Forest.print_prune`).

## Main Definitions

* `Tree.withoutComments`, `Tree.statements` : the contents of a tree without its comments

## Main Statements

* `Tree.print_eq_of_statements`
* `Sheet.write_compact_congr`
-/

namespace LosslessCss

/-- The tree without its comments. -/
def Tree.withoutComments (t : Tree Node) : Tree Node :=
  ⟨t.value, t.children.prune fun n => !n.content.isComment⟩

/-- **A tree without comments, gaps and places.**  What is left of a node is its content. -/
def Tree.statements (t : Tree Node) : Tree Content := t.withoutComments.map Node.content

/-! ### Comments -/

namespace Forest

theorem hasStatement_prune (f : Forest Node) :
    (f.prune fun n => !n.content.isComment).hasStatement = f.hasStatement := by
  induction f with
  | nil => rfl
  | cons n children next _ ih =>
    rw [prune, hasStatement]
    cases hcomment : n.content.isComment with
    | true => exact ih
    | false => simp [hasStatement, hcomment]

/-- **A forest without its comments** has the same compact form. -/
theorem print_prune (g : String → String) (f : Forest Node) (closed first : Bool) (depth : Nat) :
    (f.prune fun n => !n.content.isComment).print (.compact g) closed first depth =
      f.print (.compact g) closed first depth := by
  induction f generalizing closed first depth with
  | nil => rfl
  | cons n children next ihChildren ihNext =>
    have hkeeps : (Layout.compact g).keeps n = !n.content.isComment := rfl
    rw [prune, print, hkeeps]
    cases hcomment : n.content.isComment with
    | true =>
      have hnext := print_first (l := .compact g) (fun _ _ _ _ => rfl) next closed first false depth
      simp [ihNext, hnext]
    | false =>
      have hfoot (isEmpty : Bool) : (Layout.compact g).foot isEmpty depth n = "" := rfl
      simp [print, hkeeps, hcomment, Layout.wrap, ihChildren, ihNext, hasStatement_prune, hfoot]

end Forest

/-- **Trees with the same statements** have the same compact form. -/
theorem Tree.print_eq_of_statements {t t' : Tree Node} (h : t.statements = t'.statements)
    (g : String → String) : t.print (.compact g) = t'.print (.compact g) := by
  have hwithout (t : Tree Node) : t.print (.compact g) = t.withoutComments.print (.compact g) := by
    rw [print, print, withoutComments, Forest.print_prune]
  rw [hwithout t, hwithout t']
  exact print_compact_congr h g

/-! ### Sheets -/

namespace Sheet

variable {s s' : Sheet}

/-- **Minimizing takes no notice of formatting.**  Two sheets that were read and edited, and that have
the same statements attached in the same order and nesting, have the same compact form in each
setting.  It is the text of the loop that prints them, and the one that recursion prints. -/
theorem write_compact_congr (hs : s.Reached) (hs' : s'.Reached)
    (hsame : s.attachedTree.statements = s'.attachedTree.statements) (pxToRem : Bool) (rootSize : Nat)
    {turns turns' : Nat} (hturns : 2 * (s.below root).length + 1 ≤ turns)
    (hturns' : 2 * (s'.below root).length + 1 ≤ turns') :
    let l := Style.layout { minimize := true, pxToRem, rootSize }
    s.attachedTree.print l = s'.attachedTree.print l ∧
      ∃ text, (s.write turns l).map Prod.fst = some text ∧
        (s'.write turns' l).map Prod.fst = some text ∧ text = s.attachedTree.print l := by
  intro l
  have htexts : s.attachedTree.print l = s'.attachedTree.print l :=
    Tree.print_eq_of_statements hsame _
  obtain ⟨t, ht, -⟩ := hs.wellFormed.exists_attachedTree
  obtain ⟨t', ht', -⟩ := hs'.wellFormed.exists_attachedTree
  refine ⟨htexts, s.attachedTree.print l, ?_, ?_, rfl⟩
  · rw [write_of_regular hs.wellFormed (Style.regular _) ht hturns, Option.map_some]
  · rw [write_of_regular hs'.wellFormed (Style.regular _) ht' hturns', Option.map_some, htexts]

/-- A rule with gaps and a comment. -/
def spacedSheet : Source where
  text := "a \x7b width : 16px ; /*k*/ \x7d"

/-- A comment and an empty rule. -/
def emptyRuleSheet : Source where
  text := "/*x*/a\x7b\x7d"

/-- Operations that put a declaration of a width into the rule. -/
def widthOperations : List Operation := [.createDeclaration "width" "16px", .edit (.append 2 3)]

theorem write_compact_congr_spacedSheet :
    ∃ t t' s', parse spacedSheet false = .ok t ∧ parse emptyRuleSheet false = .ok t' ∧
      widthOperations.foldl Operation.run (Sheet.ofTree t') = s' ∧
      s'.attachedTree ≠ (Sheet.ofTree t).attachedTree ∧
      ∃ text, ((Sheet.ofTree t).write 7 (Style.layout { minimize := true, pxToRem := true })).map
          Prod.fst = some text ∧
        (s'.write 7 (Style.layout { minimize := true, pxToRem := true })).map Prod.fst = some text := by
  have hrun : (parse spacedSheet false).toOption.any (fun t =>
      (parse emptyRuleSheet false).toOption.any fun t' =>
        let s := Sheet.ofTree t
        let s' := widthOperations.foldl Operation.run (Sheet.ofTree t')
        decide (s'.attachedTree ≠ s.attachedTree) &&
          (decide (s.attachedTree.statements = s'.attachedTree.statements) &&
            ((s.below root).length == 3 && (s'.below root).length == 3))) = true := by
    decide +kernel
  obtain ⟨t, ht, hrun⟩ := exists_ok_of_any hrun
  obtain ⟨t', ht', hrun⟩ := exists_ok_of_any hrun
  obtain ⟨hne, hrun⟩ := Bool.and_eq_true_iff.mp hrun
  obtain ⟨hsame, hrun⟩ := Bool.and_eq_true_iff.mp hrun
  obtain ⟨hsize, hsize'⟩ := Bool.and_eq_true_iff.mp hrun
  have hturns {s : Sheet} (h : ((s.below root).length == 3) = true) :
      2 * (s.below root).length + 1 ≤ 7 := by
    rw [beq_iff_eq.mp h]
  obtain ⟨-, text, htext, htext', -⟩ := write_compact_congr (.parsed ht)
    ((Reached.parsed ht').foldl widthOperations) (of_decide_eq_true hsame) true defaultRootSize
    (hturns hsize) (hturns hsize')
  exact ⟨t, t', _, ht, ht', rfl, of_decide_eq_true hne, text, htext, htext'⟩

end Sheet

end LosslessCss
