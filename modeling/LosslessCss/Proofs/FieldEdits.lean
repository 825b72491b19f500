import LosslessCss.Proofs.NodeSpans

/-!
# Edits of fields are surgical

The texts of a node that mean something can be replaced: property and value of a declaration, the
selector of a rule, the text of a comment.  Printing an edited sheet gives the source with these
texts replaced where they stood, and every other byte as it was.

So there are two ways from a source to the printed sheet.  One edits the sheet and prints it, the
other cuts the source at the ranges of the edited fields and puts the new texts in.  They agree
since a node that was read stands where the text in front of it ends (`Forest.Located`), and since
its gaps are written around its fields in both.

## Main Definitions

* `Field`, `Content.setField` : the texts that can be replaced
* `FieldEdit`, `FieldEdit.apply`, `FieldEdit.latest?` : an edit of a sheet, and what remains of many
* `Node.range?` : where a field stands in the source
* `Patch`, `Source.patched?` : a source with some of its ranges replaced
* `Sheet.patches` : the patches that a list of edits amounts to

## Main Statements

* `Forest.update_eq_map`, `FieldEdit.run_trees` : edits change every field to its latest text
* `Forest.Located.patch` : patching the text of a forest is writing the edited forest
* `patched_eq_print_edited`
-/

namespace LosslessCss

open String (utf8Len utf8Len_toList)

/-! ### Patches -/

/-- A range of bytes and the text that it is replaced by. -/
structure Patch where
  start : Nat
  stop : Nat
  text : String
  deriving DecidableEq, Repr

/-- **Characters with some ranges replaced**; the first character stands at the byte `here`.  The
ranges must come in order, must not overlap, and must start and stop between characters. -/
def Patch.splice? : (here : Nat) → List Char → List Patch → Option (List Char)
  | _, cs, [] => some cs
  | here, cs, p :: ps =>
    if here ≤ p.start ∧ p.start ≤ p.stop then do
      let (kept, rest) ← Source.cut? (p.start - here) cs
      let (_, behind) ← Source.cut? (p.stop - p.start) rest
      let out ← splice? p.stop behind ps
      return kept ++ p.text.toList ++ out
    else none

/-- **The text of a source with some ranges replaced.** -/
def Source.patched? (s : Source) (ps : List Patch) : Option String :=
  (Patch.splice? 0 s.text.toList ps).map String.ofList

namespace Patch

variable {here : Nat} {cs out : List Char} {ps : List Patch}

/-- Text in front of all patches is kept. -/
theorem splice?_append (kept : String)
    (h : splice? (here + kept.utf8ByteSize) cs ps = some out) :
    splice? here (kept.toList ++ cs) ps = some (kept.toList ++ out) := by
  cases ps with
  | nil =>
    obtain rfl : cs = out := Option.some.inj h
    rfl
  | cons p ps =>
    rw [splice?] at h ⊢
    split at h
    · next hrange =>
      obtain ⟨hstart, hstop⟩ := hrange
      rw [if_pos ⟨by omega, hstop⟩]
      obtain ⟨⟨kept', rest⟩, hcut, h⟩ := Option.bind_eq_some_iff.mp h
      obtain ⟨⟨old, behind⟩, hold, h⟩ := Option.bind_eq_some_iff.mp h
      obtain ⟨out', hout, h⟩ := Option.bind_eq_some_iff.mp h
      obtain rfl := Option.some.inj h
      have hcut' : Source.cut? (p.start - here) (kept.toList ++ cs) =
          some (kept.toList ++ kept', rest) := by
        have hsize : p.start - here =
            utf8Len kept.toList + (p.start - (here + kept.utf8ByteSize)) := by
          rw [utf8Len_toList]
          omega
        rw [hsize, Source.cut?_append, hcut]
        rfl
      simp [hcut', hold, hout]
    · cases h

/-- The patch that puts a new text, if there is one, where the text `old` starts. -/
def replacing (start : Nat) (old : String) (new? : Option String) : List Patch :=
  (new?.map (Patch.mk start (start + old.utf8ByteSize))).toList

/-- **Text that a patch stands over** is replaced. -/
theorem splice?_replacing (old : String) (new? : Option String)
    (h : splice? (here + old.utf8ByteSize) cs ps = some out) :
    splice? here (old.toList ++ cs) (replacing here old new? ++ ps) =
      some ((new?.getD old).toList ++ out) := by
  cases new? with
  | none => exact splice?_append old h
  | some new =>
    have hcut := Source.cut?_size old.toList cs
    rw [utf8Len_toList] at hcut
    simp [replacing, splice?, hcut, h]

/-- **The ranges of patches** come in order, do not overlap, and lie between characters. -/
theorem ranges_of_splice? (h : splice? here cs ps = some out) :
    (ps.Pairwise fun p q => p.stop ≤ q.start) ∧ ∀ p ∈ ps, ∃ front old behind,
      cs = front ++ (old ++ behind) ∧ p.start = here + utf8Len front ∧
        p.stop = p.start + utf8Len old := by
  induction ps generalizing here cs out with
  | nil => exact ⟨.nil, List.forall_mem_nil _⟩
  | cons p ps ih =>
    rw [splice?] at h
    split at h
    · next hrange =>
      obtain ⟨⟨front, rest⟩, hfront, h⟩ := Option.bind_eq_some_iff.mp h
      obtain ⟨⟨old, behind⟩, hold, h⟩ := Option.bind_eq_some_iff.mp h
      obtain ⟨out', hout, -⟩ := Option.bind_eq_some_iff.mp h
      obtain ⟨rfl, hstart⟩ := Source.eq_append_of_cut? hfront
      obtain ⟨rfl, hstop⟩ := Source.eq_append_of_cut? hold
      obtain ⟨hpairwise, hranges⟩ := ih hout
      refine ⟨List.pairwise_cons.mpr ⟨fun q hq => ?_, hpairwise⟩,
        List.forall_mem_cons.mpr ⟨⟨front, old, behind, rfl, by omega, by omega⟩, fun q hq => ?_⟩⟩
      · obtain ⟨front', _, _, -, hq', -⟩ := hranges q hq
        omega
      · obtain ⟨front', old', behind', rfl, hq', hstop'⟩ := hranges q hq
        refine ⟨front ++ (old ++ front'), old', behind', by simp, ?_, hstop'⟩
        rw [hq', String.utf8Len_append, String.utf8Len_append]
        omega
    · cases h

end Patch

/-! ### Fields -/

/-- A text of a node that can be replaced. -/
inductive Field where
  | property
  | value
  | selector
  | text
  deriving DecidableEq, Repr

namespace Field

/-- All fields, in the order in which they stand in a node. -/
def all : List Field := [property, value, selector, text]

end Field

namespace Content

/-- The text of a field, if there is such a field. -/
def field? : Field → Content → Option String
  | .property, declaration property _ _ => some property
  | .value, declaration _ value _ => some value
  | .selector, rule selector => some selector
  | .text, comment text => some text
  | _, _ => none

/-- The content with another text in a field, if there is such a field. -/
def setField (field : Field) (new : String) : Content → Content
  | declaration property value important =>
    match field with
    | .property => declaration new value important
    | .value => declaration property new important
    | _ => declaration property value important
  | rule selector => rule (if field = .selector then new else selector)
  | comment text => comment (if field = .text then new else text)
  | c => c

/-- The content with other texts in some of its fields. -/
def edited (new? : Field → Option String) : Content → Content
  | declaration property value important =>
    declaration ((new? .property).getD property) ((new? .value).getD value) important
  | rule selector => rule ((new? .selector).getD selector)
  | comment text => comment ((new? .text).getD text)
  | c => c

variable {new? : Field → Option String}

@[simp]
theorem edited_opensBlock (c : Content) : (c.edited new?).opensBlock = c.opensBlock := by
  cases c <;> rfl

@[simp]
theorem edited_isComment (c : Content) : (c.edited new?).isComment = c.isComment := by
  cases c <;> rfl

@[simp]
theorem edited_none (c : Content) : c.edited (fun _ => none) = c := by
  cases c <;> rfl

/-- **One more text**: the latest one counts. -/
theorem setField_edited (field : Field) (new : String) (c : Content) :
    (c.edited new?).setField field new =
      c.edited fun f => if f = field then some new else new? f := by
  cases c <;> cases field <;> simp [edited, setField]

end Content

/-- The node with other texts in some of its fields. -/
def Node.edited (new? : Field → Option String) (n : Node) : Node :=
  { n with content := n.content.edited new? }

@[simp]
theorem Node.edited_raws (new? : Field → Option String) (n : Node) :
    (n.edited new?).raws = n.raws := rfl

/-- What a node has in front of a field: nothing in front of a property or a selector, the property
and the gap in front of a value, the mark and the space behind it in front of the text of a
comment. -/
def Node.inFrontOf? (n : Node) : Field → Option String
  | .property | .selector => some ""
  | .value =>
    match n.content with
    | .declaration property _ _ => n.raws.between.map (property ++ ·)
    | _ => none
  | .text => n.raws.left.map ("/*" ++ ·)

/-- **Where a field stands** in the source: it starts where its node does, but for what the node has
in front of the field. -/
def Node.range? (n : Node) (field : Field) : Option (Nat × Nat) := do
  let span ← n.span
  let old ← n.content.field? field
  let front ← n.inFrontOf? field
  let start := span.start.offset + front.utf8ByteSize
  return (start, start + old.utf8ByteSize)

/-- The patches that put new texts in the fields of a node. -/
def Node.patches (new? : Field → Option String) (n : Node) : List Patch :=
  Field.all.filterMap fun field => do
    let (start, stop) ← n.range? field
    let new ← new? field
    return ⟨start, stop, new⟩

/-! ### Edits -/

/-- A new text for a field of a node. -/
structure FieldEdit where
  node : Handle
  field : Field
  text : String
  deriving DecidableEq, Repr

namespace FieldEdit

/-- The sheet after an edit. -/
def apply (s : Sheet) (e : FieldEdit) : Sheet :=
  s.update e.node fun n => { n with content := n.content.setField e.field e.text }

/-- **The latest text** that edits give to a field of a node. -/
def latest? (edits : List FieldEdit) (h : Handle) (field : Field) : Option String :=
  (edits.reverse.find? fun e => e.node == h && e.field == field).map FieldEdit.text

end FieldEdit

/-- **The patches that edits amount to**: one for each field that they give a text, in the order in
which the fields stand in the sheet. -/
def Sheet.patches (s : Sheet) (edits : List FieldEdit) : List Patch :=
  s.trees.preorder.flatMap fun e => e.node.patches (FieldEdit.latest? edits e.handle)

/-! ### What edits do to a sheet -/

/-- The entry with other texts in some fields of its node. -/
def Entry.edited (new? : Handle → Field → Option String) (e : Entry) : Entry :=
  { e with node := e.node.edited (new? e.handle) }

namespace Forest

/-- A forest whose values stay the same stays the same. -/
theorem map_eq_self {α : Type} {g : α → α} {f : Forest α} (hf : ∀ a ∈ f.preorder, g a = a) :
    f.map g = f := by
  induction f with
  | nil => rfl
  | cons a children next ihChildren ihNext =>
    simp only [preorder, List.forall_mem_cons, List.mem_append, or_imp, forall_and] at hf
    rw [map, hf.1, ihChildren hf.2.1, ihNext hf.2.2]

/-- **An update changes the node with its handle**, if no other node has the handle. -/
theorem update_eq_map {f : Forest Entry} (hf : (f.preorder.map Entry.handle).Nodup) (h : Handle)
    (change : Node → Node) :
    f.update h change =
      f.map fun e => if e.handle = h then { e with node := change e.node } else e := by
  induction f with
  | nil => rfl
  | cons e children next ihChildren ihNext =>
    rw [preorder, List.map_cons, List.map_append, List.nodup_cons, List.nodup_append] at hf
    obtain ⟨hfresh, hchildren, hnext, -⟩ := hf
    rw [List.mem_append, not_or] at hfresh
    have hother {g : Forest Entry} (hg : e.handle ∉ g.preorder.map Entry.handle) :
        ∀ d ∈ g.preorder,
          (if d.handle = e.handle then { d with node := change d.node } else d) = d := by
      intro d hd
      refine if_neg fun hsame => hg ?_
      rw [← hsame]
      exact List.mem_map_of_mem hd
    rw [update, map]
    split
    · next hhandle =>
      rw [← hhandle, map_eq_self (hother hfresh.1), map_eq_self (hother hfresh.2)]
    · rw [ihChildren hchildren, ihNext hnext]

end Forest

namespace FieldEdit

theorem latest?_nil : latest? [] = fun _ _ => none := rfl

/-- The last edit of a field counts. -/
theorem latest?_concat (edits : List FieldEdit) (e : FieldEdit) (h : Handle) (field : Field) :
    latest? (edits ++ [e]) h field =
      if e.node = h ∧ field = e.field then some e.text else latest? edits h field := by
  rw [latest?, List.reverse_append, List.reverse_singleton, List.singleton_append, List.find?_cons]
  by_cases hsame : e.node = h ∧ field = e.field
  · simp [hsame]
  · have hother : (e.node == h && e.field == field) = false := by
      rw [Bool.eq_false_iff]
      intro hsame'
      simp only [Bool.and_eq_true, beq_iff_eq] at hsame'
      exact hsame ⟨hsame'.1, hsame'.2.symm⟩
    rw [if_neg hsame, hother]
    rfl

/-- One more edit changes the node that it names. -/
theorem edited_concat (edits : List FieldEdit) (e : FieldEdit) (d : Entry) :
    d.edited (latest? (edits ++ [e])) =
      if d.handle = e.node then
        { d with
          node := { d.node with
            content := (d.node.content.edited (latest? edits d.handle)).setField e.field e.text } }
      else d.edited (latest? edits) := by
  have hlatest : latest? (edits ++ [e]) d.handle = fun field =>
      if e.node = d.handle ∧ field = e.field then some e.text
      else latest? edits d.handle field := by
    funext field
    exact latest?_concat edits e d.handle field
  rw [Entry.edited, Node.edited, hlatest]
  split
  · next hhandle => simp [Content.setField_edited, hhandle]
  · next hhandle => simp [Entry.edited, Node.edited, Ne.symm hhandle]

/-- **Edits change every field to its latest text**, and nothing else. -/
theorem run_trees {s : Sheet} (hs : (s.trees.preorder.map Entry.handle).Nodup)
    (edits : List FieldEdit) :
    (edits.foldl apply s).trees = s.trees.map (Entry.edited (latest? edits)) := by
  induction edits using List.reverseRecOn with
  | nil =>
    refine (Forest.map_eq_self fun e _ => ?_).symm
    simp [Entry.edited, Node.edited, latest?_nil]
  | append_singleton edits e ih =>
    have hhandles : (edits.foldl apply s).trees.preorder.map Entry.handle =
        s.trees.preorder.map Entry.handle := by
      rw [ih, Forest.preorder_map, List.map_map]
      rfl
    rw [List.foldl_append, List.foldl_cons, List.foldl_nil, apply, Sheet.update,
      Forest.update_eq_map (by rwa [hhandles]), ih, Forest.map_map]
    rw [funext (edited_concat edits e)]
    rfl

end FieldEdit

/-! ### Fields in the text of a node -/

section

variable {n : Node} {front : String} {closed : Bool} {cs out : List Char} {ps : List Patch}

/-- The gap of a declaration that was read was recorded. -/
theorem Node.Written.exists_between (h : n.Written) {property value : String} {important : Bool}
    (hcontent : n.content = .declaration property value important) :
    ∃ between, n.raws.between = some between := by
  cases h with
  | comment _ hcomment => simp [hcomment] at hcontent
  | run _ _ _ hrecords =>
    rw [hcontent] at hrecords
    obtain ⟨parts, -, hbetween, -⟩ := hrecords
    exact ⟨_, hbetween⟩

/-- The space in a comment that was read was recorded. -/
theorem Node.Written.exists_left (h : n.Written) {text : String}
    (hcontent : n.content = .comment text) : ∃ left, n.raws.left = some left := by
  cases h with
  | comment _ _ hleft => exact ⟨_, hleft⟩
  | run _ _ hread =>
    rw [hcontent] at hread
    cases hread

/-- The text of a declaration whose gap was recorded. -/
theorem Layout.faithfulHead_of_between {raws : Raws} {between : String}
    (hbetween : raws.between = some between) (property value : String) (important closed : Bool)
    (span? : Option Span) :
    faithfulHead id closed ⟨.declaration property value important, raws, span?⟩ =
      property ++ between ++ value ++
        ((if important then raws.important.getD " !important" else "") ++
          if closed then raws.afterValue.getD "" ++ ";" else "") := by
  simp [faithfulHead, hbetween, String.append_assoc]

/-- The text of a comment whose space was recorded. -/
theorem Layout.faithfulHead_of_left {raws : Raws} {left : String} (hleft : raws.left = some left)
    (text : String) (closed : Bool) (span? : Option Span) :
    faithfulHead id closed ⟨.comment text, raws, span?⟩ =
      "/*" ++ left ++ text ++ (raws.right.getD " " ++ "*/") := by
  simp [faithfulHead, hleft, String.append_assoc]

section Heads

variable (new? : Field → Option String) {raws : Raws} {span : Span}

/-- **Patching the selector of a rule** writes the head of the edited rule. -/
theorem Node.patch_rule {selector : String} {n : Node} (hn : n = ⟨.rule selector, raws, some span⟩)
    (hrest : Patch.splice? (span.start.offset + (Layout.faithfulHead id closed n).utf8ByteSize)
      cs ps = some out) :
    Patch.splice? span.start.offset ((Layout.faithfulHead id closed n).toList ++ cs)
        (n.patches new? ++ ps) =
      some ((Layout.faithfulHead id closed (n.edited new?)).toList ++ out) := by
  have hpatches : n.patches new? = Patch.replacing span.start.offset selector (new? .selector) := by
    subst hn
    cases hnew : new? .selector <;>
      simp [Node.patches, Field.all, Node.range?, Node.inFrontOf?, Content.field?,
        Patch.replacing, hnew]
  rw [hpatches]
  subst hn
  have hgap : Patch.splice? (span.start.offset + selector.utf8ByteSize)
      ((raws.between.getD " ").toList ++ cs) ps = some ((raws.between.getD " ").toList ++ out) :=
    Patch.splice?_append _ (by simpa [Layout.faithfulHead, Nat.add_assoc] using hrest)
  simpa [Node.edited, Content.edited, Layout.faithfulHead] using
    Patch.splice?_replacing selector (new? .selector) hgap

/-- **Patching the property and the value of a declaration** writes the edited declaration. -/
theorem Node.patch_declaration {property value between : String} {important : Bool} {n : Node}
    (hn : n = ⟨.declaration property value important, raws, some span⟩)
    (hbetween : raws.between = some between)
    (hrest : Patch.splice? (span.start.offset + (Layout.faithfulHead id closed n).utf8ByteSize)
      cs ps = some out) :
    Patch.splice? span.start.offset ((Layout.faithfulHead id closed n).toList ++ cs)
        (n.patches new? ++ ps) =
      some ((Layout.faithfulHead id closed (n.edited new?)).toList ++ out) := by
  have hpatches : n.patches new? =
      Patch.replacing span.start.offset property (new? .property) ++
        Patch.replacing (span.start.offset + property.utf8ByteSize + between.utf8ByteSize) value
          (new? .value) := by
    subst hn
    cases hproperty : new? .property <;> cases hvalue : new? .value <;>
      simp [Node.patches, Field.all, Node.range?, Node.inFrontOf?, Content.field?,
        Patch.replacing, hproperty, hvalue, hbetween, Nat.add_assoc]
  rw [hpatches]
  subst hn
  obtain ⟨tail, hhead⟩ : ∃ tail, ∀ property value,
      Layout.faithfulHead id closed ⟨.declaration property value important, raws, some span⟩ =
        property ++ between ++ value ++ tail :=
    ⟨_, fun _ _ => Layout.faithfulHead_of_between hbetween _ _ important closed (some span)⟩
  rw [hhead] at hrest
  rw [Node.edited, hhead, Content.edited, hhead]
  have hbehind : Patch.splice? (span.start.offset + property.utf8ByteSize +
      between.utf8ByteSize + value.utf8ByteSize) (tail.toList ++ cs) ps =
        some (tail.toList ++ out) :=
    Patch.splice?_append _ (by simpa [Nat.add_assoc] using hrest)
  have hvalue := Patch.splice?_append between
    (Patch.splice?_replacing value (new? .value) hbehind)
  simpa using Patch.splice?_replacing property (new? .property) hvalue

/-- **Patching the text of a comment** writes the edited comment. -/
theorem Node.patch_comment {text left : String} {n : Node}
    (hn : n = ⟨.comment text, raws, some span⟩) (hleft : raws.left = some left)
    (hrest : Patch.splice? (span.start.offset + (Layout.faithfulHead id closed n).utf8ByteSize)
      cs ps = some out) :
    Patch.splice? span.start.offset ((Layout.faithfulHead id closed n).toList ++ cs)
        (n.patches new? ++ ps) =
      some ((Layout.faithfulHead id closed (n.edited new?)).toList ++ out) := by
  have hpatches : n.patches new? =
      Patch.replacing (span.start.offset + ("/*" ++ left).utf8ByteSize) text (new? .text) := by
    subst hn
    cases hnew : new? .text <;>
      simp [Node.patches, Field.all, Node.range?, Node.inFrontOf?, Content.field?,
        Patch.replacing, hnew, hleft]
  rw [hpatches]
  subst hn
  have hhead (text : String) := Layout.faithfulHead_of_left hleft text closed (some span)
  rw [hhead] at hrest
  rw [Node.edited, hhead, Content.edited, hhead]
  have hbehind : Patch.splice? (span.start.offset + ("/*" ++ left).utf8ByteSize +
      text.utf8ByteSize) ((raws.right.getD " " ++ "*/").toList ++ cs) ps =
        some ((raws.right.getD " " ++ "*/").toList ++ out) :=
    Patch.splice?_append _ (by simpa [Nat.add_assoc] using hrest)
  simpa using Patch.splice?_append ("/*" ++ left)
    (Patch.splice?_replacing text (new? .text) hbehind)

/-- **Patching the head of a node** writes the edited head. -/
theorem Node.Written.patch_head (hwritten : n.Written) (hspan : n.span = some span)
    (hrest : Patch.splice? (span.start.offset + (Layout.faithfulHead id closed n).utf8ByteSize)
      cs ps = some out) :
    Patch.splice? span.start.offset ((Layout.faithfulHead id closed n).toList ++ cs)
        (n.patches new? ++ ps) =
      some ((Layout.faithfulHead id closed (n.edited new?)).toList ++ out) := by
  obtain ⟨content, raws, span?⟩ := n
  obtain rfl : span? = some span := hspan
  cases content with
  | root => exact Patch.splice?_append _ hrest
  | atRule => exact Patch.splice?_append _ hrest
  | rule selector => exact Node.patch_rule new? rfl hrest
  | declaration property value important =>
    obtain ⟨between, hbetween⟩ := hwritten.exists_between rfl
    exact Node.patch_declaration new? rfl hbetween hrest
  | comment text =>
    obtain ⟨left, hleft⟩ := hwritten.exists_left rfl
    exact Node.patch_comment new? rfl hleft hrest

end Heads

/-- **Patching a node up to its block**, or all of it, writes the edited node. -/
theorem Node.Written.patch_opening (hwritten : n.Written) (new? : Field → Option String)
    (hstart : n.span.map Span.start =
      some (Position.start.advance (front ++ n.raws.before.getD "")))
    (hrest : Patch.splice? (front ++ n.opening closed).utf8ByteSize cs ps = some out) :
    Patch.splice? front.utf8ByteSize ((n.opening closed).toList ++ cs) (n.patches new? ++ ps) =
      some (((n.edited new?).opening closed).toList ++ out) := by
  obtain ⟨span, hspan, hoffset⟩ := Option.map_eq_some_iff.mp hstart
  have hplace : span.start.offset = front.utf8ByteSize + (n.raws.before.getD "").utf8ByteSize := by
    rw [hoffset, Position.advance_offset, Position.start_offset, Nat.zero_add,
      String.utf8ByteSize_append]
  have hbrace : Patch.splice?
      (span.start.offset + (Layout.faithfulHead id closed n).utf8ByteSize)
      ((if n.content.opensBlock then "\x7b" else "").toList ++ cs) ps =
        some ((if n.content.opensBlock then "\x7b" else "").toList ++ out) := by
    refine Patch.splice?_append _ ?_
    rw [hplace]
    simpa [Node.opening, Nat.add_assoc] using hrest
  have hhead := hwritten.patch_head new? hspan hbrace
  rw [hplace] at hhead
  have hnode := Patch.splice?_append _ hhead
  simpa [Node.opening, Node.edited] using hnode

end

/-! ### Forests -/

section

variable {source : Source} {tokens : List Token} (new? : Handle → Field → Option String)

/-- An edited forest has statements where the forest has. -/
theorem Forest.hasStatement_edited (g : Forest Entry) :
    ((g.map (Entry.edited new?)).map Entry.node).hasStatement =
      (g.map Entry.node).hasStatement := by
  induction g with
  | nil => rfl
  | cons e children next _ ih =>
    simp [map, hasStatement, ih, Entry.edited, Node.edited]

/-- An edited forest is recorded if the forest is. -/
theorem Forest.Recorded.edited {g : Forest Entry} (h : (g.map Entry.node).Recorded) :
    ((g.map (Entry.edited new?)).map Entry.node).Recorded := by
  induction g with
  | nil => exact recorded_nil
  | cons e children next ihChildren ihNext =>
    obtain ⟨⟨hbefore, hafter⟩, hchildren, hnext⟩ := recorded_cons.mp h
    refine recorded_cons.mpr ⟨⟨hbefore, fun hopens => hafter ?_⟩, ihChildren hchildren,
      ihNext hnext⟩
    simpa [Entry.edited, Node.edited] using hopens

/-- **Patching the text of a forest** writes the edited forest. -/
theorem Forest.Located.patch {g : Forest Entry} {closed : Bool} {front : String}
    (hlocated : (g.map Entry.node).Located source tokens closed front)
    (hlegible : (g.map Entry.node).Legible) {cs out : List Char} {ps : List Patch}
    (hrest : Patch.splice? (front ++ (g.map Entry.node).replay closed).utf8ByteSize cs ps =
      some out) :
    Patch.splice? front.utf8ByteSize (((g.map Entry.node).replay closed).toList ++ cs)
        ((g.preorder.flatMap fun e => e.node.patches (new? e.handle)) ++ ps) =
      some ((((g.map (Entry.edited new?)).map Entry.node).replay closed).toList ++ out) := by
  induction g generalizing front closed cs ps out with
  | nil => simpa [map, preorder, replay] using hrest
  | cons e children next ihChildren ihNext =>
    obtain ⟨-, hstart, hchildren, hnext⟩ := hlocated
    obtain ⟨⟨hwritten, -, hleaf⟩, hlegibleChildren, hlegibleNext⟩ := hlegible
    rw [String.append_assoc, Tree.before_append_replay] at hnext
    rw [map, replay] at hrest ⊢
    rw [map, map, replay, hasStatement_edited, preorder, List.flatMap_cons, List.flatMap_append]
    have hopens : (Entry.edited new? e).node.content.opensBlock = e.node.content.opensBlock := by
      simp [Entry.edited, Node.edited]
    rw [hopens]
    cases hopens : e.node.content.opensBlock with
    | false =>
      obtain rfl := Forest.map_eq_nil_iff.mp (hleaf hopens)
      simp only [hopens, Bool.false_eq_true, if_false, String.append_empty] at hnext hrest ⊢
      rw [← String.append_assoc] at hrest
      have hnode := hwritten.patch_opening (new? e.handle) hstart
        (ihNext hnext hlegibleNext hrest)
      simpa [preorder, Entry.edited] using hnode
    | true =>
      simp only [hopens, if_true] at hnext hrest ⊢
      simp only [← String.append_assoc] at hnext hrest
      have hfoot := Patch.splice?_append (e.node.raws.after.getD "" ++ "\x7d")
        (show Patch.splice?
            ((front ++ e.node.opening (closed || (next.map Entry.node).hasStatement) ++
              (children.map Entry.node).replay (e.node.raws.semicolon.getD false)).utf8ByteSize +
              (e.node.raws.after.getD "" ++ "\x7d").utf8ByteSize) _ _ = some _ by
          rw [← String.utf8ByteSize_append, ← String.append_assoc]
          exact ihNext hnext hlegibleNext hrest)
      have hnode := hwritten.patch_opening (new? e.handle) hstart
        (ihChildren hchildren hlegibleChildren hfoot)
      simpa [Entry.edited] using hnode

end

/-! ### Fields in the source -/

/-- **A field stands in the text of its node** behind what the node has in front of it.  Only the
text of a statement without a block goes on with a semicolon. -/
theorem Node.Written.exists_behind {n : Node} (h : n.Written) {field : Field} {old : String}
    (hfield : n.content.field? field = some old) :
    ∃ front behind, n.inFrontOf? field = some front ∧
      Layout.faithfulHead id true n =
        front ++ old ++ behind ++ if n.content.isPlain then ";" else "" := by
  obtain ⟨content, raws, span?⟩ := n
  cases content with
  | root => simp [Content.field?] at hfield
  | atRule => simp [Content.field?] at hfield
  | rule selector =>
    cases field <;> simp only [Content.field?, reduceCtorEq, Option.some.injEq] at hfield
    subst hfield
    exact ⟨"", raws.between.getD " ", rfl, by simp [Layout.faithfulHead, Content.isPlain]⟩
  | declaration property value important =>
    obtain ⟨between, hbetween⟩ := h.exists_between rfl
    replace hbetween : raws.between = some between := hbetween
    generalize htail : (if important then raws.important.getD " !important" else "") ++
      raws.afterValue.getD "" = tail
    have hhead : Layout.faithfulHead id true
        ⟨.declaration property value important, raws, span?⟩ =
          property ++ between ++ value ++ tail ++ ";" := by
      simp [Layout.faithfulHead_of_between hbetween, ← htail, String.append_assoc]
    cases field <;> simp only [Content.field?, reduceCtorEq, Option.some.injEq] at hfield
    · subst hfield
      refine ⟨"", between ++ value ++ tail, rfl, ?_⟩
      rw [hhead]
      simp [Content.isPlain, String.append_assoc]
    · subst hfield
      refine ⟨property ++ between, tail, by simp [inFrontOf?, hbetween], ?_⟩
      rw [hhead]
      rfl
  | comment text =>
    obtain ⟨left, hleft⟩ := h.exists_left rfl
    replace hleft : raws.left = some left := hleft
    cases field <;> simp only [Content.field?, reduceCtorEq, Option.some.injEq] at hfield
    subst hfield
    refine ⟨"/*" ++ left, raws.right.getD " " ++ "*/", by simp [inFrontOf?, hleft], ?_⟩
    simp [Layout.faithfulHead_of_left hleft, Content.isPlain]

/-- **The range of a field** holds its text. -/
theorem Tree.Spans.exists_range {source : Source} {tokens : List Token} {u : Tree Node}
    (h : u.Spans source tokens) (hwritten : u.value.Written) {field : Field} {old : String}
    (hfield : u.value.content.field? field = some old) :
    ∃ start stop, u.value.range? field = some (start, stop) ∧
      source.slice? source.id start stop = some old := by
  obtain ⟨span, text, hspan, ⟨before, after, htext, rfl⟩, hprints⟩ := h
  obtain ⟨front, behind, hfront, hhead⟩ := hwritten.exists_behind hfield
  obtain ⟨rest, hrest⟩ : ∃ rest, text = front ++ old ++ rest := by
    generalize hreplay : u.replay true = printed at hprints
    rw [Tree.replay, hhead] at hreplay
    cases hprints with
    | whole | closed =>
      simp only [String.append_assoc] at hreplay ⊢
      exact ⟨_, hreplay.symm⟩
    | unclosed hplain =>
      simp only [hplain, if_true, (Content.of_isPlain hplain).2, Bool.false_eq_true, if_false,
        String.append_empty] at hreplay
      exact ⟨behind, ((String.append_left_inj _).mp hreplay).symm⟩
  subst hrest
  have hcovers : Span.Covers ⟨source.id, Position.start.advance (before ++ front),
      Position.start.advance (before ++ front ++ old)⟩ source old :=
    ⟨before ++ front, rest ++ after, by rw [htext]; simp only [String.append_assoc], rfl⟩
  refine ⟨_, _, ?_, by simpa using hcovers.slice?_eq⟩
  simp [Node.range?, hspan, hfield, hfront]

/-! ### Main statement -/

/-- Handles in document order differ from each other. -/
theorem Sheet.nodup_ofTree (t : Tree Node) :
    ((Sheet.ofTree t).trees.preorder.map Entry.handle).Nodup := by
  rw [Sheet.ofTree, Forest.map_handle_label]
  exact List.nodup_range'

/-- The root has no field. -/
theorem Sheet.patches_ofTree {t : Tree Node} (hroot : t.value.content = .root)
    (edits : List FieldEdit) :
    (ofTree t).patches edits =
      (t.children.label 1).preorder.flatMap fun e =>
        e.node.patches (FieldEdit.latest? edits e.handle) := by
  have hnone : t.value.patches (FieldEdit.latest? edits root) = [] := by
    simp [Node.patches, Node.range?, hroot, Content.field?]
  have htrees : (ofTree t).trees = .cons ⟨root, t.value⟩ (t.children.label 1) .nil := rfl
  rw [patches, htrees, Forest.preorder, List.flatMap_cons, hnone, List.nil_append, Forest.preorder,
    List.append_nil]

/-- **The tree of an edited sheet** has the edited nodes. -/
theorem FieldEdit.attachedTree_run (t : Tree Node) (edits : List FieldEdit) :
    (edits.foldl apply (Sheet.ofTree t)).attachedTree =
      ⟨t.value.edited (latest? edits Sheet.root),
        ((t.children.label 1).map (Entry.edited (latest? edits))).map Entry.node⟩ := by
  rw [Sheet.attachedTree, Sheet.tree?, Sheet.find?, run_trees (Sheet.nodup_ofTree t)]
  rfl

/-- **Every field that was read** has a range in the source, which holds its text. -/
theorem exists_range_of_parse {source : Source} {t : Tree Node}
    (hparse : parse source false = .ok t) {e : Entry}
    (he : e ∈ (Sheet.ofTree t).trees.preorder) {field : Field} {old : String}
    (hfield : e.node.content.field? field = some old) :
    ∃ start stop, e.node.range? field = some (start, stop) ∧
      source.slice? source.id start stop = some old := by
  obtain ⟨hlocated, -⟩ := located_of_parse hparse
  obtain ⟨-, hroot, -, hnodes⟩ := reads_of_parse hparse
  have htrees : (Sheet.ofTree t).trees =
      .cons ⟨Sheet.root, t.value⟩ (t.children.label 1) .nil := rfl
  rw [htrees, Forest.preorder, Forest.preorder, List.append_nil] at he
  rcases List.mem_cons.mp he with rfl | he
  · simp [hroot, Content.field?] at hfield
  · have hmem : e.node ∈ t.children.preorder := by
      rw [← Forest.map_node_label 1 t.children, Forest.preorder_map]
      exact List.mem_map_of_mem he
    have hwritten := (hnodes e.node hmem).1
    rw [Forest.preorder_eq_map_subtrees] at hmem
    obtain ⟨u, hu, hvalue⟩ := List.mem_map.mp hmem
    rw [← hvalue] at hwritten hfield ⊢
    exact (hlocated.spans hu).exists_range hwritten hfield

/-- **Edits of fields are surgical.**  Take a sheet that a strict parse accepts, and give new texts
to any of its fields.  What is then printed is the source, with the ranges of these fields replaced
by their new texts.  The range of a field is where the source has its text. -/
theorem patched_eq_print_edited {source : Source} {t : Tree Node}
    (hparse : parse source false = .ok t) (edits : List FieldEdit) :
    source.patched? ((Sheet.ofTree t).patches edits) =
        some ((edits.foldl FieldEdit.apply (Sheet.ofTree t)).attachedTree.print
          (Style.layout {})) ∧
      ∀ e ∈ (Sheet.ofTree t).trees.preorder, ∀ field old, e.node.content.field? field = some old →
        ∃ start stop, e.node.range? field = some (start, stop) ∧
          source.slice? source.id start stop = some old := by
  refine ⟨?_, fun e he field old hfield => exists_range_of_parse hparse he hfield⟩
  obtain ⟨hlocated, hrecorded⟩ := located_of_parse hparse
  obtain ⟨hreads, hroot, -, hnodes⟩ := reads_of_parse hparse
  have hlegible := hreads.legible rfl hnodes
  have htext : source.text =
      t.children.replay (t.value.raws.semicolon.getD false) ++ t.value.raws.after.getD "" := by
    rw [← Tree.print_faithful_of_parse hparse, Tree.print,
      Forest.print_faithful_eq_replay hrecorded]
    rfl
  rw [← Forest.map_node_label 1 t.children] at hlocated hlegible hrecorded htext
  -- Behind all nodes the gap in front of the end is kept.
  have hfoot (n : Nat) : Patch.splice? n (t.value.raws.after.getD "").toList [] =
      some (t.value.raws.after.getD "").toList := rfl
  have hpatch := hlocated.patch (FieldEdit.latest? edits) hlegible (hfoot _)
  rw [List.append_nil] at hpatch
  have hprint := Forest.print_faithful_eq_replay (hrecorded.edited (FieldEdit.latest? edits))
    (t.value.raws.semicolon.getD false) true 0
  rw [Source.patched?, Sheet.patches_ofTree hroot, htext, String.toList_append,
    FieldEdit.attachedTree_run, Style.layout_default, Tree.print]
  refine (congrArg (Option.map String.ofList) hpatch).trans ?_
  rw [← String.toList_append, Option.map_some, String.ofList_toList, ← hprint]
  rfl

/-- Edits of a selector, of a declaration and of a comment; the value is edited twice. -/
def busyFieldEdits : List FieldEdit :=
  [⟨2, .value, ""⟩, ⟨5, .text, "*/k2"⟩, ⟨1, .selector, "x, y"⟩, ⟨2, .property, "z"⟩,
    ⟨2, .value, "1"⟩]

theorem patched_eq_print_edited_busySheet :
    ∃ t, parse busySheet false = .ok t ∧
      busySheet.patched? ((Sheet.ofTree t).patches busyFieldEdits) =
        some "x, y\x7b z:1; d\x7be:f\x7d\x7d/**/k2*/@g h;" := by
  have hrun : (parse busySheet false).toOption.any (fun t =>
      (busyFieldEdits.foldl FieldEdit.apply (Sheet.ofTree t)).attachedTree.print
        (Style.layout {}) == "x, y\x7b z:1; d\x7be:f\x7d\x7d/**/k2*/@g h;") = true := by
    decide +kernel
  obtain ⟨t, ht, hprint⟩ := exists_ok_of_any hrun
  refine ⟨t, ht, ?_⟩
  rw [(patched_eq_print_edited ht busyFieldEdits).1, beq_iff_eq.mp hprint]

end LosslessCss
