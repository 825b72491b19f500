import LosslessCss.Proofs.Relinking

/-!
# Structural edits in place

An edit of a sheet that is changed in place must be refused before anything is changed, for what was
changed stays so.  Moving a node takes three steps: the checks, unlinking the node, and linking it
again.  Linking can fail as well, and if it failed, the node would be left unlinked.

On a well-formed sheet linking does not fail.  The checks have made sure that the container is live
and outside of the node, and what they have seen is still true when the node is unlinked.  So an edit
in place either has the effect of the edit or leaves the sheet as it was (`Edit.execute_eq`).

So a program that makes nodes and edits, and goes on after an edit has failed, never gets to a sheet
that is not well-formed (`Sheet.Reached.wellFormed`).

## Main Definitions

* `Fault`, `InPlace` : programs that work on a sheet in place, and what stops them
* `InPlace.link` : linking, with the condition under which it fails
* `Edit.execute` : the edits in place
* `Operation.run`, `Sheet.Reached` : what a program can do to a sheet, and the sheets it gets to

## Main Statements

* `Edit.execute_eq` : editing in place is editing
* `Edit.apply_spec` : when an edit happens, what it does, and why it is refused
* `Sheet.consistent_of_reached` : the answers of a sheet that can be reached agree
-/

namespace LosslessCss

open Relation (ReflTransGen TransGen)

/-- What stops an edit in place: a check refuses it, or a node cannot be linked. -/
inductive Fault where
  | refused (e : EditError)
  | unlinkable (node : Handle)
  deriving DecidableEq, Repr

/-- A program that works on a sheet in place.  What was changed stays so if the program stops. -/
abbrev InPlace := EStateM Fault Sheet

namespace InPlace

/-- A check, which looks at the sheet and leaves it as it is. -/
def look {α : Type} (check : Sheet → Except EditError α) : InPlace α := do
  match check (← get) with
  | .ok a => return a
  | .error e => throw (.refused e)

/-- Takes a node out of its place. -/
def unlink (h : Handle) : InPlace Unit :=
  modify fun s =>
    match s.find? h with
    | some t => s.unlinked t
    | none => s

/-- **Links a node to a place.**  This fails if the node was removed, or if outside of the node there
is nothing that the place refers to. -/
def link (place : Place) (h : Handle) : InPlace Unit := do
  let s ← get
  match s.find? h with
  | none => throw (.unlinkable h)
  | some t =>
    let others := s.trees.erase h
    if (others.find? place.anchor).isNone then throw (.unlinkable h)
    else set { s with trees := others.insert place t }

/-- Moves a node to a place. -/
def relink (place : Place) (h : Handle) : InPlace Unit := do
  let parent ← look (·.container place)
  let _ ← look (·.checkInsertion parent h)
  match place with
  | .lastIn parent | .firstIn parent =>
    unlink h
    link place h
    modify (·.update parent Sheet.giveBody)
  | .before sibling | .after sibling =>
    if sibling = h then return
    unlink h
    link place h

end InPlace

/-- **The edits in place.** -/
def Edit.execute : Edit → InPlace Unit
  | detach h => do
    let _ ← InPlace.look (·.checkMovable h)
    InPlace.unlink h
  | remove h => do
    let _ ← InPlace.look (·.checkMovable h)
    modify (·.dropped h)
  | append parent h => InPlace.relink (.lastIn parent) h
  | prepend parent h => InPlace.relink (.firstIn parent) h
  | insertBefore sibling h => InPlace.relink (.before sibling) h
  | insertAfter sibling h => InPlace.relink (.after sibling) h

namespace Forest

/-- A tree behind a forest is taken out of there. -/
theorem erase_append_of_not_mem {f g : Forest Entry} {h : Handle} (hf : h ∉ f.handles) :
    (f ++ g).erase h = f ++ g.erase h := by
  induction f with
  | nil => rfl
  | cons e children next _ ih =>
    rw [handles_cons, List.mem_cons, List.mem_append, not_or, not_or] at hf
    rw [cons_append, erase, if_neg (Ne.symm hf.1), erase_of_not_mem hf.2.1, ih hf.2.2, cons_append]

end Forest

namespace Sheet

variable {s s' : Sheet} {h p : Handle} {t : Tree Entry} {place : Place}

/-- Taking out a node that is detached leaves what taking it out of its place leaves. -/
theorem erase_unlinked (hs : s.WellFormed) (ht : s.find? h = some t) :
    (s.unlinked t).trees.erase h = s.trees.erase h := by
  have hself : t.value.handle = h := Forest.handle_of_find? ht
  rw [unlinked, hself, Forest.erase_append_of_not_mem (Forest.not_mem_handles_erase hs.nodup ht),
    Forest.erase, if_pos hself, Forest.append_nil]

end Sheet

namespace InPlace

variable {α : Type} {s s' : Sheet} {h p : Handle} {t : Tree Entry} {place : Place}

theorem look_of_ok {check : Sheet → Except EditError α} {a : α} (hcheck : check s = .ok a) :
    (look check).run s = .ok a s := by
  simp [look, hcheck]

theorem look_of_error {check : Sheet → Except EditError α} {e : EditError}
    (hcheck : check s = .error e) : (look check).run s = .error (.refused e) s := by
  rw [look, EStateM.run_bind, EStateM.run_get]
  dsimp only
  rw [hcheck]
  rfl

theorem unlink_of_find? (ht : s.find? h = some t) :
    (unlink h).run s = .ok () (s.unlinked t) := by
  simp [unlink, ht]

/-- **Linking does not fail** after the checks, and puts the node where it belongs. -/
theorem link_unlinked (hs : s.WellFormed) (ha : s.Admits h p place) (ht : s.find? h = some t) :
    (link place h).run (s.unlinked t) =
      .ok () { s with trees := (s.trees.erase h).insert place t } := by
  -- What the checks have seen is still true when the node is unlinked.
  have hfound : (s.unlinked t).find? h = some t := (ha.toMovable.unlinks hs ht).subtree.trans ht
  have hstay : place.anchor ∈ (s.trees.erase h).handles :=
    (Forest.mem_handles_erase hs.nodup ht).mpr
      ⟨Sheet.isLive_iff.mp (ha.isLive_anchor hs), ha.anchor_not_mem hs ht⟩
  obtain ⟨u, hu⟩ := Forest.exists_find?_of_mem hstay
  have hfresh : (s.unlinked t).fresh = s.fresh := rfl
  simp [link, hfound, Sheet.erase_unlinked hs ht, hu, hfresh]

/-- **A node that fits is moved in place.** -/
theorem relink_of_fits (hs : s.WellFormed) (hp : s.container place = .ok p) (hh : s.Fits h p)
    (ht : s.find? h = some t) : (relink place h).run s = .ok () (s.moved place t) := by
  have hself : t.value.handle = h := Forest.handle_of_find? ht
  obtain ⟨u, hu, hcheck⟩ := Sheet.checkInsertion_of_fits hs hh
  have hparent : (look (·.container place)).run s = .ok p s := look_of_ok hp
  have hpasses : (look (·.checkInsertion p h)).run s = .ok u s := look_of_ok hcheck
  cases place with
  | lastIn parent | firstIn parent =>
    have hne : parent ≠ h := by
      obtain rfl := Except.ok.inj hp
      rintro rfl
      exact hh.apart .refl
    have hlink := link_unlinked hs ⟨hh, hp, hne⟩ ht
    simp [relink, hparent, hpasses, unlink_of_find? ht, hlink, Sheet.moved, hself]
  | before sibling | after sibling =>
    -- Next to itself the node stays, and is not unlinked.
    by_cases hne : sibling = h
    · subst hne
      simp [relink, hparent, hpasses, Sheet.moved, hself]
    · have hlink := link_unlinked hs ⟨hh, hp, hne⟩ ht
      simp [relink, hparent, hpasses, unlink_of_find? ht, hlink, Sheet.moved, hself, hne]

/-- **What is refused is refused in place**, and the sheet stays as it was. -/
theorem relink_of_error {e : EditError} (he : s.move place h = .error e) :
    (relink place h).run s = .error (.refused e) s := by
  rw [Sheet.move] at he
  unfold relink
  rw [EStateM.run_bind]
  cases hcontainer : s.container place with
  | error e' =>
    rw [hcontainer] at he
    obtain rfl : e' = e := Except.error.inj he
    rw [look_of_error hcontainer]
  | ok p =>
    rw [look_of_ok hcontainer]
    dsimp only
    rw [EStateM.run_bind]
    rw [hcontainer] at he
    dsimp only [bind, Except.bind] at he
    cases hcheck : s.checkInsertion p h with
    | error e' =>
      rw [hcheck] at he
      obtain rfl : e' = e := Except.error.inj he
      rw [look_of_error hcheck]
    | ok t =>
      rw [hcheck] at he
      cases he

end InPlace

namespace Edit

variable {s s' : Sheet} {edit : Edit}

/-- What an edit in place comes to: the sheet of the edit, or the sheet as it was. -/
def outcome (s : Sheet) : Except EditError Sheet → EStateM.Result Fault Sheet Unit
  | .ok s' => .ok () s'
  | .error e => .error (.refused e) s

/-- **Editing in place is editing.**  No edit stops half done. -/
theorem execute_eq (hs : s.WellFormed) (edit : Edit) :
    edit.execute.run s = outcome s (edit.apply s) := by
  have hrelink (place : Place) (h : Handle) :
      (InPlace.relink place h).run s = outcome s (s.move place h) := by
    cases hmove : s.move place h with
    | error e => exact InPlace.relink_of_error hmove
    | ok s' =>
      obtain ⟨p, t, hp, hh, ht, rfl⟩ := Sheet.exists_fits_of_move hs hmove
      exact InPlace.relink_of_fits hs hp hh ht
  -- Both other edits start with the same check.
  have hchecked (h : Handle) (x : InPlace Unit) (f : Tree Entry → Sheet)
      (hx : ∀ t, s.find? h = some t → x.run s = .ok () (f t)) :
      (InPlace.look (·.checkMovable h) >>= fun _ => x).run s =
        outcome s (s.checkMovable h >>= fun t => .ok (f t)) := by
    rw [EStateM.run_bind]
    rcases s.movable_or h with hh | ⟨e, he⟩
    · obtain ⟨t, ht, hcheck⟩ := Sheet.checkMovable_of_movable hh
      rw [InPlace.look_of_ok hcheck, hcheck]
      exact hx t ht
    · have hcheck := Sheet.checkMovable_of_immovable he
      rw [InPlace.look_of_error hcheck, hcheck]
      rfl
  cases edit with
  | detach h =>
    refine hchecked h (InPlace.unlink h)
      (fun t => { s with trees := s.trees.erase h ++ .cons t.value t.children .nil }) fun t ht => ?_
    have hself : t.value.handle = h := Forest.handle_of_find? ht
    rw [InPlace.unlink_of_find? ht, Sheet.unlinked, hself]
  | remove h =>
    exact hchecked h (modify (·.dropped h)) (fun _ => s.dropped h) fun _ _ => by simp
  | append parent h => exact hrelink (.lastIn parent) h
  | prepend parent h => exact hrelink (.firstIn parent) h
  | insertBefore sibling h => exact hrelink (.before sibling) h
  | insertAfter sibling h => exact hrelink (.after sibling) h

/-- **Edits do exactly what they say, or nothing.**  On a well-formed sheet an edit happens under its
conditions and has its effect, and the error is the first condition that fails.  In place it changes
the sheet to the same sheet, and where it is refused the sheet is as it was. -/
theorem apply_spec (hs : s.WellFormed) (edit : Edit) :
    ((∃ s', edit.apply s = .ok s') ↔ edit.Allowed s) ∧
      (∀ e, edit.apply s = .error e ↔ edit.Refused s e) ∧
      (∀ s', edit.apply s = .ok s' → edit.Does s s') ∧
      (∀ s', edit.execute.run s = .ok () s' ↔ edit.apply s = .ok s') ∧
      ∀ fault s', edit.execute.run s = .error fault s' ↔
        s' = s ∧ ∃ e, fault = .refused e ∧ edit.apply s = .error e := by
  have hexecute := execute_eq hs edit
  rcases edit.allowed_or hs with he | ⟨e, he⟩
  · obtain ⟨s₁, happly, hdoes, -⟩ := exists_apply_of_allowed hs he
    rw [happly, outcome] at hexecute
    rw [happly, hexecute]
    refine ⟨⟨fun _ => he, fun _ => ⟨s₁, rfl⟩⟩, fun e => ⟨fun h => (by cases h), fun hrefused => ?_⟩,
      ?_, ?_, ?_⟩
    · cases happly.symm.trans (apply_of_refused hs hrefused)
    · intro s' hs'
      cases hs'
      exact hdoes
    · intro s'
      simp
    · intro fault s'
      simp
  · have happly := apply_of_refused hs he
    rw [happly, outcome] at hexecute
    rw [happly, hexecute]
    refine ⟨⟨fun ⟨s', h⟩ => (by cases h), fun hallowed => ?_⟩, fun e' => ⟨fun h => ?_, fun he' => ?_⟩,
      ?_, ?_, ?_⟩
    · obtain ⟨s₁, hok, -⟩ := exists_apply_of_allowed hs hallowed
      cases happly.symm.trans hok
    · cases h
      exact he
    · exact happly.symm.trans (apply_of_refused hs he')
    · intro s' h
      cases h
    · intro s'
      simp
    · intro fault s'
      simp [eq_comm, and_comm]

theorem apply_spec_busySheet :
    ∃ t s', parse busySheet false = .ok t ∧
      (insertBefore 2 3).apply (Sheet.ofTree t) = .ok s' ∧ s'.children 1 = [3, 2] ∧
      (insertBefore 2 3).Does (Sheet.ofTree t) s' ∧
      (append 3 1).apply (Sheet.ofTree t) = .error (.cycle 1) ∧
      (append 3 1).Refused (Sheet.ofTree t) (.cycle 1) := by
  have hrun : (parse busySheet false).toOption.any (fun t =>
      decide ((append 3 1).apply (Sheet.ofTree t) = .error (.cycle 1)) &&
        ((insertBefore 2 3).apply (Sheet.ofTree t)).toOption.any fun s' =>
          s'.children 1 == [3, 2]) = true := by
    decide +kernel
  obtain ⟨t, ht, hrun⟩ := exists_ok_of_any hrun
  obtain ⟨hcycle, hrun⟩ := Bool.and_eq_true_iff.mp hrun
  obtain ⟨s', hs', hchildren⟩ := exists_ok_of_any hrun
  have hs := Sheet.wellFormed_of_parse ht
  exact ⟨t, s', ht, hs', beq_iff_eq.mp hchildren, (apply_spec hs (insertBefore 2 3)).2.2.1 s' hs',
    of_decide_eq_true hcycle, ((apply_spec hs (append 3 1)).2.1 _).mp (of_decide_eq_true hcycle)⟩

end Edit

/-! ### Operations -/

/-- **What a program can do to a sheet**: it makes a node or edits the sheet. -/
inductive Operation where
  | createRule (selector : String)
  | createAtRule (name params : String)
  | createDeclaration (property value : String)
  | createComment (text : String)
  | edit (edit : Edit)
  deriving DecidableEq, Repr

/-- The sheet after an operation.  Edits work in place, so this is what an edit leaves behind, whether
it succeeds or fails. -/
def Operation.run (s : Sheet) : Operation → Sheet
  | createRule selector => (s.create (.rule selector)).2
  | createAtRule name params => (s.create (.atRule name params false)).2
  | createDeclaration property value => (s.create (.declaration property value false)).2
  | createComment text => (s.create (.comment text)).2
  | edit e =>
    match e.execute.run s with
    | .ok _ s' | .error _ s' => s'

/-- **A sheet that can be reached**: one that was read, the empty one, and whatever an operation makes
of a sheet that can be reached. -/
inductive Sheet.Reached : Sheet → Prop
  | parsed {source : Source} {lenient : Bool} {t : Tree Node} (h : parse source lenient = .ok t) :
      Reached (Sheet.ofTree t)
  | empty : Reached Sheet.empty
  | step {s : Sheet} (h : Reached s) (operation : Operation) : Reached (operation.run s)

namespace Sheet

variable {s : Sheet}

/-- **An operation keeps a sheet well-formed.** -/
theorem WellFormed.run (hs : s.WellFormed) (operation : Operation) :
    (operation.run s).WellFormed := by
  cases operation with
  | createRule | createAtRule | createDeclaration | createComment => exact hs.create nofun
  | edit e =>
    rw [Operation.run, e.execute_eq hs]
    cases happly : e.apply s with
    | error err => exact hs
    | ok s' => exact e.wellFormed_apply hs happly

theorem Reached.wellFormed (h : s.Reached) : s.WellFormed := by
  induction h with
  | parsed h => exact wellFormed_of_parse h
  | empty => exact wellFormed_empty
  | step _ operation ih => exact ih.run operation

theorem Reached.foldl (h : s.Reached) (operations : List Operation) :
    (operations.foldl Operation.run s).Reached := by
  induction operations generalizing s with
  | nil => exact h
  | cons operation operations ih => exact ih (h.step operation)

/-- **Parents, children and what is counted along the line upwards agree** on every sheet that can be
reached, whatever was tried on the way. -/
theorem consistent_of_reached (h : s.Reached) : s.Consistent := h.wellFormed.consistent

/-- Operations on a sheet that was read, with moves into, out of and beside a node, a removed node
that is used again, a cycle and a leaf as a container. -/
def busyOperations : List Operation :=
  [.createAtRule "media" "(x)", .createComment "c", .edit (.append 7 1), .edit (.insertBefore 6 7),
    .edit (.append 3 7), .edit (.prepend 2 8), .edit (.detach 3), .edit (.insertAfter 2 3),
    .edit (.insertAfter 2 2), .edit (.remove 4), .edit (.append 4 8), .edit (.prepend 7 8),
    .edit (.detach 0), .edit (.insertAfter 0 8)]

theorem consistent_of_reached_busyOperations :
    ∃ t s, parse busySheet false = .ok t ∧
      busyOperations.foldl Operation.run (Sheet.ofTree t) = s ∧ s.children 0 = [5, 7, 6] ∧
        s.children 7 = [8, 1] ∧ s.children 1 = [2, 3] ∧ s.node? 4 = none ∧ s.Consistent := by
  have hrun : (parse busySheet false).toOption.any (fun t =>
      let s := busyOperations.foldl Operation.run (Sheet.ofTree t)
      s.children 0 == [5, 7, 6] && s.children 7 == [8, 1] && s.children 1 == [2, 3] &&
        decide (s.node? 4 = none)) = true := by
    decide +kernel
  obtain ⟨t, ht, hrun⟩ := exists_ok_of_any hrun
  obtain ⟨hrun, hremoved⟩ := Bool.and_eq_true_iff.mp hrun
  obtain ⟨hrun, hrule⟩ := Bool.and_eq_true_iff.mp hrun
  obtain ⟨hroot, hmedia⟩ := Bool.and_eq_true_iff.mp hrun
  exact ⟨t, _, ht, rfl, beq_iff_eq.mp hroot, beq_iff_eq.mp hmedia, beq_iff_eq.mp hrule,
    of_decide_eq_true hremoved, consistent_of_reached ((Reached.parsed ht).foldl busyOperations)⟩

end Sheet

end LosslessCss
