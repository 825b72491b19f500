import LosslessCss.Node
import LosslessCss.Text.Quoted
import LosslessCss.Tree.Forest

/-!
# Outlines

An outline shows a tree to people: one line per node in document order, indented by two spaces per
level, with the meaningful texts in quotes and without the gaps.
-/

namespace LosslessCss

/-- The line of a node, without its indentation. -/
def Content.outlineLine : Content → String
  | .root => "Root:"
  | .atRule name params hasBody =>
    "AtRule: @" ++ name ++ (if params.isEmpty then "" else " " ++ Text.quote params) ++
      (if hasBody then "" else " (no body)")
  | .rule selector => "Rule: " ++ Text.quote selector
  | .declaration property value important =>
    "Decl: " ++ property ++ " = " ++ Text.quote value ++ (if important then " !important" else "")
  | .comment text => "Comment: " ++ Text.quote text

/-- What a node means never starts with a space, so spaces in front of it can be counted. -/
theorem Content.indent_outlineLine (content : Content) (most : Nat) :
    ((String.ofList (List.replicate most ' ') ++ content.outlineLine ++ "\n").toList.takeWhile
      (· == ' ')).length = most := by
  have hhead : (content.outlineLine.toList ++ ['\n']).takeWhile (· == ' ') = [] := by
    cases content <;> simp [outlineLine]
  rw [String.toList_append, String.toList_append, String.toList_ofList, List.append_assoc,
    List.takeWhile_append_of_pos (by simp), String.toList_ofList, hhead, List.append_nil,
    List.length_replicate]

/-- The line of a node at a depth. -/
def Node.outlineLine (depth : Nat) (n : Node) : String :=
  String.ofList (List.replicate (2 * depth) ' ') ++ n.content.outlineLine ++ "\n"

/-- **The outline of a tree.** -/
def Tree.outlineText (t : Tree Node) : String :=
  String.join (((0, t.value) :: t.children.outline 1).map fun (depth, n) => n.outlineLine depth)

end LosslessCss
