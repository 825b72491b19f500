/-!
# Trees and forests

A `Forest` is a finite sequence of trees, written in first-child, next-sibling form: a value, the
forest of its children, and the forest of what follows it.  A single inductive type without nesting
makes every traversal one structural recursion, and every fact about a traversal one plain
induction.

## Main Definitions

* `Forest`, `Tree`
* `Forest.preorder` : the values in document order, a parent in front of its children
* `Forest.outline` : the same with the depth of each value
* `Forest.size` : how many values there are
* `Forest.map`, `Forest.append`, `Forest.ofLatestFirst`
* `Forest.prune` : some values left out, with all that is below them
-/

namespace LosslessCss

universe u v

/-- A sequence of trees over `α`. -/
inductive Forest (α : Type u) where
  | nil
  | cons (value : α) (children next : Forest α)
  deriving DecidableEq, Repr

/-- A value with the forest of its children. -/
structure Tree (α : Type u) where
  value : α
  children : Forest α
  deriving DecidableEq, Repr

namespace Forest

variable {α : Type u} {β : Type v}

/-- Document order: each value in front of those below it, and those in front of what follows. -/
def preorder : Forest α → List α
  | nil => []
  | cons a children next => a :: (children.preorder ++ next.preorder)

/-- Document order with depths, where the first values have depth `depth`. -/
def outline (depth : Nat) : Forest α → List (Nat × α)
  | nil => []
  | cons a children next => (depth, a) :: (children.outline (depth + 1) ++ next.outline depth)

/-- How many values there are. -/
def size : Forest α → Nat
  | nil => 0
  | cons _ children next => children.size + next.size + 1

/-- The values at the top, in order. -/
def tops : Forest α → List α
  | nil => []
  | cons a _ next => a :: next.tops

/-- There is no tree. -/
def isEmpty : Forest α → Bool
  | nil => true
  | cons _ _ _ => false

/-- A value for each value. -/
def map (f : α → β) : Forest α → Forest β
  | nil => nil
  | cons a children next => cons (f a) (children.map f) (next.map f)

/-- The forest without the trees whose values do not pass a test. -/
def prune (p : α → Bool) : Forest α → Forest α
  | nil => nil
  | cons a children next =>
    if p a then cons a (children.prune p) (next.prune p) else next.prune p

/-- The trees of one forest followed by those of another. -/
def append : Forest α → Forest α → Forest α
  | nil, g => g
  | cons a children next, g => cons a children (next.append g)

instance : Append (Forest α) := ⟨append⟩

/-- A list of trees, the latest first, as a forest in order. -/
def ofLatestFirst (ts : List (Tree α)) : Forest α :=
  ts.foldl (fun next t => cons t.value t.children next) nil

@[simp] theorem nil_append (g : Forest α) : nil ++ g = g := rfl

@[simp] theorem cons_append (a : α) (children next g : Forest α) :
    cons a children next ++ g = cons a children (next ++ g) := rfl

@[simp] theorem append_nil (f : Forest α) : f ++ nil = f := by
  induction f with
  | nil => rfl
  | cons a children next _ ih => simp [ih]

theorem append_assoc (f g h : Forest α) : (f ++ g) ++ h = f ++ (g ++ h) := by
  induction f with
  | nil => rfl
  | cons a children next _ ih => simp [ih]

@[simp] theorem preorder_append (f g : Forest α) :
    (f ++ g).preorder = f.preorder ++ g.preorder := by
  induction f with
  | nil => rfl
  | cons a children next _ ih => simp [preorder, ih]

/-- Document order has each value once. -/
theorem length_preorder (f : Forest α) : f.preorder.length = f.size := by
  induction f with
  | nil => rfl
  | cons a children next ihChildren ihNext => simp [preorder, size, ihChildren, ihNext]

theorem preorder_map (g : α → β) (f : Forest α) : (f.map g).preorder = f.preorder.map g := by
  induction f with
  | nil => rfl
  | cons a children next ihChildren ihNext => simp [map, preorder, ihChildren, ihNext]

theorem tops_map (g : α → β) (f : Forest α) : (f.map g).tops = f.tops.map g := by
  induction f with
  | nil => rfl
  | cons a children next _ ihNext => simp [map, tops, ihNext]

theorem map_map {γ : Type v} (g : β → γ) (k : α → β) (f : Forest α) :
    (f.map k).map g = f.map fun a => g (k a) := by
  induction f with
  | nil => rfl
  | cons a children next ihChildren ihNext => simp [map, ihChildren, ihNext]

@[simp] theorem map_append (g : α → β) (f f' : Forest α) :
    (f ++ f').map g = f.map g ++ f'.map g := by
  induction f with
  | nil => rfl
  | cons a children next _ ih => simp [map, ih]

@[simp] theorem map_eq_nil_iff {g : α → β} {f : Forest α} : f.map g = nil ↔ f = nil := by
  cases f <;> simp [map]

private theorem foldl_cons_eq_append (ts : List (Tree α)) (g : Forest α) :
    ts.foldl (fun next t => cons t.value t.children next) g = ofLatestFirst ts ++ g := by
  induction ts generalizing g with
  | nil => rfl
  | cons t ts ih =>
    rw [ofLatestFirst, List.foldl_cons, List.foldl_cons, ih, ih (cons _ _ nil), append_assoc]
    rfl

@[simp] theorem ofLatestFirst_nil : ofLatestFirst ([] : List (Tree α)) = nil := rfl

/-- **The latest tree comes last.** -/
@[simp] theorem ofLatestFirst_cons (t : Tree α) (ts : List (Tree α)) :
    ofLatestFirst (t :: ts) = ofLatestFirst ts ++ cons t.value t.children nil := by
  rw [ofLatestFirst, List.foldl_cons, foldl_cons_eq_append]

end Forest

/-- A value for each value. -/
def Tree.map {α : Type u} {β : Type v} (f : α → β) (t : Tree α) : Tree β :=
  ⟨f t.value, t.children.map f⟩

/-- The values of a tree in document order. -/
def Tree.preorder {α : Type u} (t : Tree α) : List α := t.value :: t.children.preorder

/-- What holds of all values, with one more tree at the end. -/
theorem Forest.forall_mem_preorder_snoc {α : Type u} {p : α → Prop} (t : Tree α)
    (ts : List (Tree α)) : (∀ a ∈ (ofLatestFirst (t :: ts)).preorder, p a) ↔
      (∀ a ∈ (ofLatestFirst ts).preorder, p a) ∧ p t.value ∧ ∀ a ∈ t.children.preorder, p a := by
  rw [ofLatestFirst_cons, preorder_append, List.forall_mem_append, preorder, preorder,
    List.append_nil, List.forall_mem_cons]

end LosslessCss
