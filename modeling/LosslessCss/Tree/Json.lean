import LosslessCss.Json
import LosslessCss.Node
import LosslessCss.Tree.Forest

/-!
# Export to JSON

A node becomes an object with its kind, its texts, its gaps and its span; a container also has the
array `nodes` with its children.  A gap that is missing has no field, so it differs from an empty
one.  The fields of each object stand in alphabetical order.

## Main Definitions

* `Forest.toJson` : the array items of a forest
* `Tree.toJson` : the object of a tree
-/

namespace LosslessCss

/-- A place as an object. -/
def Position.toJson (p : Position) : Json :=
  .object [("column", .number p.column), ("line", .number p.line), ("offset", .number p.offset)]

/-- A span as an object with both its ends. -/
def Span.toJson (s : Span) : Json :=
  .object [("end", s.stop.toJson), ("start", s.start.toJson)]

/-- A field, if its value is present. -/
def Json.optionalField (name : String) : Option Json → List (String × Json)
  | none => []
  | some value => [(name, value)]

/-- The gaps that are present. -/
def Raws.toJson (r : Raws) : Json :=
  .object <|
    Json.optionalField "after" (r.after.map .string) ++
    Json.optionalField "afterName" (r.afterName.map .string) ++
    Json.optionalField "afterValue" (r.afterValue.map .string) ++
    Json.optionalField "before" (r.before.map .string) ++
    Json.optionalField "between" (r.between.map .string) ++
    Json.optionalField "important" (r.important.map .string) ++
    Json.optionalField "left" (r.left.map .string) ++
    Json.optionalField "right" (r.right.map .string) ++
    Json.optionalField "semicolon" (r.semicolon.map .bool)

/-- The object of a node, where `nodes` are its children. -/
def Node.toJson (n : Node) (nodes : List Json) : Json :=
  let raws := n.raws.toJson
  let source := (n.span.map Span.toJson).getD .null
  let kind := Json.string n.content.kindName
  match n.content with
  | .root =>
    .object [("nodes", .array nodes), ("raws", raws), ("source", source), ("type", kind)]
  | .atRule name params hasBody =>
    .object [("hasBody", .bool hasBody), ("name", .string name), ("nodes", .array nodes),
      ("params", .string params), ("raws", raws), ("source", source), ("type", kind)]
  | .rule selector =>
    .object [("nodes", .array nodes), ("raws", raws), ("selector", .string selector),
      ("source", source), ("type", kind)]
  | .declaration property value important =>
    .object [("important", .bool important), ("prop", .string property), ("raws", raws),
      ("source", source), ("type", kind), ("value", .string value)]
  | .comment text =>
    .object [("raws", raws), ("source", source), ("text", .string text), ("type", kind)]

/-- Only a node that can hold others has the array of its children. -/
theorem Node.field?_nodes (n : Node) (nodes : List Json) :
    (n.toJson nodes).field? "nodes" =
      if n.content.isContainer then some (.array nodes) else none := by
  obtain ⟨content, raws, span⟩ := n
  cases content <;> rfl

/-- The objects of the trees of a forest, in order. -/
def Forest.toJson : Forest Node → List Json
  | nil => []
  | cons n children next => n.toJson children.toJson :: next.toJson

/-- The object of a tree. -/
def Tree.toJson (t : Tree Node) : Json := t.value.toJson t.children.toJson

end LosslessCss
