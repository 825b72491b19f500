import LosslessCss.Tree.Json
import LosslessCss.Tree.Outline
import LosslessCss.Proofs.Walks
import LosslessCss.Proofs.RootUnits

/-!
# Snapshots

The object of a tree tells all about the tree but the numbers of the sources that its nodes were read
from (`Sheet.toJson_eq_iff_and_texts_eq`).  Two things could be lost on the way.  A gap that is
missing has no field, so fields have to be told apart by their names, and an empty gap still has one
(`Raws.toJson_injective`).  And a node that cannot hold children has no array for them, so there must
be none: this is where the sheet has to be one that can be reached (`Forest.Grounded`).

Printing and outlining ask for no number of a source, so sheets with equal objects give equal texts.

## Main Definitions

* `Node.unnumbered`, `Tree.SameButSources` : trees up to the numbers of sources
* `Forest.Grounded` : nothing stands below a node that cannot hold children

## Main Statements

* `Raws.toJson_injective`, `Node.toJson_eq_iff`, `Forest.toJson_eq_iff` : what the objects tell
* `Sheet.WellFormed.grounded`
* `Sheet.toJson_eq_iff_and_texts_eq`
-/

namespace LosslessCss

/-! ### What is left out -/

/-- The span as if its source had the number 0. -/
def Span.unnumbered (s : Span) : Span := { s with source := 0 }

/-- The node as if its source had the number 0. -/
def Node.unnumbered (n : Node) : Node := { n with span := n.span.map Span.unnumbered }

/-- **Trees that differ in nothing but the numbers of their sources**: nodes of the same kinds in the
same order and nesting, with the same fields, gaps and spans. -/
def Tree.SameButSources (t u : Tree Node) : Prop := t.map Node.unnumbered = u.map Node.unnumbered

instance (t u : Tree Node) : Decidable (t.SameButSources u) :=
  inferInstanceAs (Decidable (t.map Node.unnumbered = u.map Node.unnumbered))

/-- **Nothing stands below a node that cannot hold children.** -/
def Forest.Grounded (f : Forest Node) : Prop :=
  ∀ t ∈ f.subtrees, t.value.content.isContainer = false → t.children = .nil

/-! ### Objects -/

theorem Position.toJson_injective : Function.Injective Position.toJson := by
  intro p q h
  obtain ⟨⟨hcolumn, hline⟩, hoffset⟩ : (p.column = q.column ∧ p.line = q.line) ∧
      p.offset = q.offset := by
    simpa [toJson, and_assoc] using h
  exact Position.mk.injEq .. ▸ ⟨hoffset, hline, hcolumn⟩

theorem Span.toJson_eq_iff {s s' : Span} : s.toJson = s'.toJson ↔ s.unnumbered = s'.unnumbered := by
  rw [toJson, toJson, unnumbered, unnumbered, Span.mk.injEq]
  simp [Position.toJson_injective.eq_iff, and_comm]

/-- A span and a missing one have different objects. -/
theorem Span.toJson_ne_null (s : Span) : s.toJson ≠ .null := nofun

theorem source_eq_iff (s? s'? : Option Span) :
    (s?.map Span.toJson).getD .null = (s'?.map Span.toJson).getD .null ↔
      s?.map Span.unnumbered = s'?.map Span.unnumbered := by
  cases s? <;> cases s'? <;>
    simp [Span.toJson_eq_iff, Span.toJson_ne_null, (Span.toJson_ne_null _).symm]

namespace Json

/-- **A field is found by its name.** -/
theorem lookup_optionalField (name wanted : String) (value : Option Json) :
    (optionalField name value).lookup wanted = if wanted = name then value else none := by
  cases value with
  | none => simp [optionalField]
  | some value =>
    by_cases h : wanted = name
    · simp [optionalField, h]
    · have hne : (wanted == name) = false := beq_eq_false_iff_ne.mpr h
      simp [optionalField, List.lookup_cons, h, hne]

end Json

/-- The names of the gaps. -/
def Raws.names : List String :=
  ["before", "between", "after", "afterName", "semicolon", "important", "afterValue", "left", "right"]

/-- **Gaps are told apart**, each by the name of its field, and a missing gap from an empty one. -/
theorem Raws.toJson_injective : Function.Injective Raws.toJson := by
  intro r r' h
  have hgaps := congrArg (fun fields => names.map (List.lookup · fields)) (Json.object.inj h)
  have hstring : Function.Injective (Option.map Json.string) :=
    Option.map_injective fun _ _ => Json.string.inj
  have hbool : Function.Injective (Option.map Json.bool) :=
    Option.map_injective fun _ _ => Json.bool.inj
  cases r
  cases r'
  rw [Raws.mk.injEq]
  simpa [names, List.lookup_append, Json.lookup_optionalField, hstring.eq_iff, hbool.eq_iff]
    using hgaps

/-- **The object of a node** tells all about the node but the number of its source, and of a node
that can hold children it tells the children. -/
theorem Node.toJson_eq_iff {n n' : Node} {nodes nodes' : List Json} :
    n.toJson nodes = n'.toJson nodes' ↔
      n.unnumbered = n'.unnumbered ∧ (n.content.isContainer = true → nodes = nodes') := by
  obtain ⟨content, raws, span⟩ := n
  obtain ⟨content', raws', span'⟩ := n'
  have hsource := source_eq_iff span span'
  cases content <;> cases content' <;>
    simp [toJson, unnumbered, hsource, Raws.toJson_injective.eq_iff, Content.isContainer] <;> tauto

namespace Forest

variable {f g : Forest Node}

theorem Grounded.of_cons {n : Node} {children next : Forest Node}
    (h : (cons n children next).Grounded) :
    (n.content.isContainer = false → children = nil) ∧ children.Grounded ∧ next.Grounded :=
  ⟨h ⟨n, children⟩ List.mem_cons_self,
    fun t ht => h t (List.mem_cons_of_mem _ (List.mem_append_left _ ht)),
    fun t ht => h t (List.mem_cons_of_mem _ (List.mem_append_right _ ht))⟩

/-- **The objects of a forest** tell all about it but the numbers of the sources. -/
theorem toJson_eq_iff (hf : f.Grounded) (hg : g.Grounded) :
    f.toJson = g.toJson ↔ f.map Node.unnumbered = g.map Node.unnumbered := by
  induction f generalizing g with
  | nil => cases g <;> simp [toJson, map]
  | cons n children next ihChildren ihNext =>
    cases g with
    | nil => simp [toJson, map]
    | cons n' children' next' =>
      obtain ⟨hleaf, hchildren, hnext⟩ := hf.of_cons
      obtain ⟨hleaf', hchildren', hnext'⟩ := hg.of_cons
      rw [toJson, toJson, map, map, cons.injEq, List.cons.injEq, Node.toJson_eq_iff,
        ihChildren hchildren hchildren', ihNext hnext hnext', and_assoc]
      refine and_congr_right fun hnode => and_congr_left fun _ => ?_
      cases hcontainer : n.content.isContainer with
      | true => simp
      | false =>
        have hcontent : n.unnumbered.content = n'.unnumbered.content :=
          congrArg Node.content hnode
        change n.content = n'.content at hcontent
        rw [hleaf hcontainer, hleaf' (hcontent ▸ hcontainer)]
        simp

end Forest

/-- **The object of a tree** whose top can hold children tells all about it but the numbers of the
sources. -/
theorem Tree.toJson_eq_iff {t u : Tree Node} (ht : t.children.Grounded) (hu : u.children.Grounded)
    (hcontainer : t.value.content.isContainer = true) :
    t.toJson = u.toJson ↔ t.SameButSources u := by
  rw [toJson, toJson, Node.toJson_eq_iff, Forest.toJson_eq_iff ht hu, SameButSources, map, map,
    Tree.mk.injEq]
  exact and_congr_right fun _ => ⟨fun h => h hcontainer, fun h _ => h⟩

/-! ### What is asked of a tree -/

theorem Forest.outline_map {α β : Type*} (k : α → β) (f : Forest α) (depth : Nat) :
    (f.map k).outline depth = (f.outline depth).map fun (d, a) => (d, k a) := by
  induction f generalizing depth with
  | nil => rfl
  | cons a children next ihChildren ihNext => simp [map, outline, ihChildren, ihNext]

/-- No layout asks for spans. -/
theorem Layout.mimics_unnumbered (style : Style) :
    style.layout.Mimics style.layout Node.unnumbered := by
  rw [Style.layout]
  split <;> exact ⟨fun _ => rfl, fun _ => rfl, fun _ => rfl, fun _ _ _ => rfl, fun _ _ _ => rfl,
    fun _ _ _ => rfl, fun _ => rfl, fun _ => rfl, fun _ => rfl⟩

namespace Tree.SameButSources

variable {t u : Tree Node}

/-- **Printing** asks for no number of a source. -/
theorem print_eq (h : t.SameButSources u) (style : Style) :
    t.print style.layout = u.print style.layout := by
  have hprint := Tree.print_map (Layout.mimics_unnumbered style)
  rw [← hprint t, ← hprint u, h]

/-- **Outlining** asks for no number of a source. -/
theorem outlineText_eq (h : t.SameButSources u) : t.outlineText = u.outlineText := by
  have hmap (v : Tree Node) : (v.map Node.unnumbered).outlineText = v.outlineText := by
    rw [outlineText, outlineText, map, Forest.outline_map, List.map_cons, List.map_cons,
      List.map_map]
    rfl
  rw [← hmap t, ← hmap u, h]

end Tree.SameButSources

/-! ### Sheets -/

namespace Sheet

variable {s s' : Sheet}

/-- The attached tree of a well-formed sheet, with the handles. -/
theorem WellFormed.exists_attachedTree (hs : s.WellFormed) :
    ∃ t, s.find? Sheet.root = some t ∧ s.attachedTree = t.map Entry.node ∧
      t.value.node.content = .root := by
  obtain ⟨t, ht⟩ := hs.isLive_root.exists_find?
  refine ⟨t, ht, ?_, (hs.proper _ (row_mem hs.nodup (node?_of_find? ht))).root.mpr rfl⟩
  rw [attachedTree, tree?, ht]
  rfl

/-- **A sheet can only hold what its nodes can hold.** -/
theorem WellFormed.grounded (hs : s.WellFormed) : s.attachedTree.children.Grounded := by
  obtain ⟨t, ht, htree, -⟩ := hs.exists_attachedTree
  rw [htree, Tree.map]
  intro u hu hleaf
  rw [Forest.subtrees_map] at hu
  obtain ⟨v, hv, rfl⟩ := List.mem_map.mp hu
  rw [Tree.map, hs.children_eq_nil (hs.find?_of_mem_subtrees ht hv) hleaf]
  rfl

/-- **Snapshots are faithful.**  The objects of two sheets that can be reached are equal exactly if
what is attached in the sheets is the same up to the numbers of sources, and then both sheets are
printed alike in every style and have the same outline. -/
theorem toJson_eq_iff_and_texts_eq (hs : s.Reached) (hs' : s'.Reached) :
    (s.attachedTree.toJson = s'.attachedTree.toJson ↔
        s.attachedTree.SameButSources s'.attachedTree) ∧
      (s.attachedTree.toJson = s'.attachedTree.toJson →
        (∀ style : Style,
          s.attachedTree.print style.layout = s'.attachedTree.print style.layout) ∧
        s.attachedTree.outlineText = s'.attachedTree.outlineText) := by
  have hsame : s.attachedTree.toJson = s'.attachedTree.toJson ↔
      s.attachedTree.SameButSources s'.attachedTree := by
    obtain ⟨t, -, htree, hroot⟩ := hs.wellFormed.exists_attachedTree
    refine Tree.toJson_eq_iff hs.wellFormed.grounded hs'.wellFormed.grounded ?_
    rw [htree, Tree.map, hroot]
    rfl
  exact ⟨hsame, fun h => ⟨(hsame.mp h).print_eq, (hsame.mp h).outlineText_eq⟩⟩

/-- Operations that take a declaration out of its rule and put it back, with a new node that goes
nowhere. -/
def idleOperations : List Operation :=
  [.createRule "x", .edit (.detach 2), .edit (.prepend 1 2), .edit (.append 7 2),
    .edit (.insertBefore 3 2), .edit (.remove 7)]

theorem toJson_eq_iff_and_texts_eq_busySheet :
    ∃ t t' s', parse busySheet false = .ok t ∧ parse { busySheet with id := 7 } false = .ok t' ∧
      idleOperations.foldl Operation.run (Sheet.ofTree t') = s' ∧ s' ≠ Sheet.ofTree t ∧
      (Sheet.ofTree t).attachedTree.toJson = s'.attachedTree.toJson ∧
      ∀ style : Style, (Sheet.ofTree t).attachedTree.print style.layout =
        s'.attachedTree.print style.layout := by
  have hrun : (parse busySheet false).toOption.any (fun t =>
      (parse { busySheet with id := 7 } false).toOption.any fun t' =>
        let s' := idleOperations.foldl Operation.run (Sheet.ofTree t')
        decide (s' ≠ Sheet.ofTree t) &&
          decide ((Sheet.ofTree t).attachedTree.SameButSources s'.attachedTree)) = true := by
    decide +kernel
  obtain ⟨t, ht, hrun⟩ := exists_ok_of_any hrun
  obtain ⟨t', ht', hrun⟩ := exists_ok_of_any hrun
  obtain ⟨hne, hsame⟩ := Bool.and_eq_true_iff.mp hrun
  obtain ⟨hiff, htexts⟩ :=
    toJson_eq_iff_and_texts_eq (.parsed ht) ((Reached.parsed ht').foldl idleOperations)
  have hjson := hiff.mpr (of_decide_eq_true hsame)
  exact ⟨t, t', _, ht, ht', rfl, of_decide_eq_true hne, hjson, (htexts hjson).1⟩

end Sheet

end LosslessCss
