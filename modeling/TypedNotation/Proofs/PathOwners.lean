import TypedNotation.Proofs.WorkspaceRuns

/-!
# The owner of a path

Workspaces are registered under their roots and given up again, in any order and with roots inside
other roots. The roots that are registered are different places at any time, and a root belongs to
the workspace that was registered there last, unless it was given up since
(`Workspaces.mem_registered_iff`): what is changed at one root is nothing to the others.

The owner of a path is the workspace with the longest root above it (`Workspaces.IsInnermost`). Two
roots above one path that are equally long are the same place, so there is at most one such
workspace, and a search that prefers later ones among equals never has a choice. Hence the owner
depends on the workspaces that are registered and not on their order
(`Workspaces.every_path_has_one_owner`).
-/

namespace TypedNotation.Workspaces

variable {ws : Workspaces} {v w : Workspace} {p : Path}

/-! ### Registering and giving up -/

/-- A change of what is registered. -/
inductive Change where
  | add (w : Workspace)
  | remove (root : Path)

namespace Change

/-- The root at which something changes. -/
def root : Change → Path
  | add w => w.root
  | remove root => root

/-- The workspace that has the root afterwards. -/
def workspace? : Change → Option Workspace
  | add w => some w
  | remove _ => none

end Change

/-- The workspaces after a change. -/
def change (ws : Workspaces) : Change → Workspaces
  | .add w => ws.add w
  | .remove root => (ws.remove root).2

/-- The workspaces after some changes, none being registered before. -/
def registered (changes : List Change) : Workspaces :=
  changes.foldl change []

/-- The workspace that the last change at a root has left there. -/
def lastAt? (changes : List Change) (root : Path) : Option Workspace :=
  (changes.reverse.find? (·.root.same root)).bind Change.workspace?

theorem registered_concat (changes : List Change) (c : Change) :
    registered (changes ++ [c]) = (registered changes).change c := by
  rw [registered, List.foldl_append]
  rfl

theorem lastAt?_concat (changes : List Change) (c : Change) (root : Path) :
    lastAt? (changes ++ [c]) root = if c.root.same root then c.workspace?
      else lastAt? changes root := by
  rw [lastAt?, List.reverse_append, List.reverse_singleton, List.singleton_append, List.find?_cons]
  cases c.root.same root <;> rfl

theorem Distinct.change (h : Distinct ws) (c : Change) : Distinct (ws.change c) := by
  cases c with
  | add w => exact h.add w
  | remove root => exact h.remove root

/-- The roots that are registered are different places. -/
theorem distinct_registered (changes : List Change) : Distinct (registered changes) := by
  induction changes using List.reverseRecOn with
  | nil => exact .nil
  | append_singleton changes c ih =>
    rw [registered_concat]
    exact ih.change c

theorem Distinct.mem_remove_iff (h : Distinct ws) {root : Path} :
    w ∈ (ws.remove root).2 ↔ w ∈ ws ∧ ¬w.root.same root :=
  ⟨fun hw => ⟨(remove_sublist ws root).subset hw, h.not_same_of_mem_remove hw⟩,
    fun hw => mem_remove_of_not_same hw.1 hw.2⟩

/-- A change decides about its own root and keeps what is registered at the others. -/
theorem Distinct.mem_change_iff (h : Distinct ws) {c : Change} :
    w ∈ ws.change c ↔ if c.root.same w.root then c.workspace? = some w else w ∈ ws := by
  cases c with
  | add v =>
    rw [Workspaces.change, Workspaces.add, List.mem_append, h.mem_remove_iff, List.mem_singleton]
    by_cases hroot : v.root.same w.root = true
    · simp [Change.root, Change.workspace?, hroot, Path.same_symm hroot, eq_comm]
    · have hne : w ≠ v := by
        rintro rfl
        exact hroot (Path.same_refl _)
      have hroot' : ¬w.root.same v.root := fun hs => hroot (Path.same_symm hs)
      simp [Change.root, hroot, hroot', hne]
  | remove root =>
    rw [Workspaces.change, h.mem_remove_iff]
    by_cases hroot : root.same w.root = true
    · simp [Change.root, Change.workspace?, hroot, Path.same_symm hroot]
    · have hroot' : ¬w.root.same root := fun hs => hroot (Path.same_symm hs)
      simp [Change.root, hroot, hroot']

/-- **What is registered** is, for each root, what the last change there has left. -/
theorem mem_registered_iff (changes : List Change) :
    w ∈ registered changes ↔ lastAt? changes w.root = some w := by
  induction changes using List.reverseRecOn with
  | nil => simp [registered, lastAt?]
  | append_singleton changes c ih =>
    rw [registered_concat, (distinct_registered changes).mem_change_iff, lastAt?_concat, ih]
    split <;> rfl

/-! ### The longest root -/

/-- A workspace is innermost around a path if its root lies above the path and no longer one
does. -/
structure IsInnermost (ws : Workspaces) (p : Path) (w : Workspace) : Prop where
  mem : w ∈ ws
  above : w.root.components <+: p.components
  longest : ∀ v ∈ ws, v.root.components <+: p.components →
    v.root.components.length ≤ w.root.components.length

/-- At most one of several workspaces is innermost, since a path has only one part of each length
above it. -/
theorem Distinct.eq_of_isInnermost (h : Distinct ws) (hv : ws.IsInnermost p v)
    (hw : ws.IsInnermost p w) : v = w := by
  have hlength : v.root.components.length = w.root.components.length :=
    Nat.le_antisymm (hw.longest v hv.mem hv.above) (hv.longest w hw.mem hw.above)
  have hparts : v.root.components <+: w.root.components :=
    List.prefix_of_prefix_length_le hv.above hw.above (Nat.le_of_eq hlength)
  exact h.eq_of_same hv.mem hw.mem (Path.same_iff.2 (hparts.eq_of_length hlength))

theorem isInnermost_of_owner? (h : ws.owner? p = some w) : ws.IsInnermost p w := by
  obtain ⟨hmem, habove, hlongest⟩ := owner?_eq_some h
  exact ⟨hmem, Path.isUnder_iff.1 habove, fun v hv hp => hlongest v hv (Path.isUnder_iff.2 hp)⟩

theorem Distinct.owner?_eq_some_iff (h : Distinct ws) :
    ws.owner? p = some w ↔ ws.IsInnermost p w := by
  refine ⟨isInnermost_of_owner?, fun hw => ?_⟩
  obtain ⟨v, hv⟩ := exists_owner? hw.mem (Path.isUnder_iff.2 hw.above)
  rw [hv, h.eq_of_isInnermost (isInnermost_of_owner? hv) hw]

theorem owner?_eq_none_iff : ws.owner? p = none ↔
    ∀ w ∈ ws, ¬w.root.components <+: p.components := by
  constructor
  · intro hnone w hw habove
    obtain ⟨v, hv⟩ := exists_owner? hw (Path.isUnder_iff.2 habove)
    rw [hnone] at hv
    cases hv
  · intro hnone
    cases howner : ws.owner? p with
    | none => rfl
    | some w =>
      exact absurd (isInnermost_of_owner? howner).above (hnone w (isInnermost_of_owner? howner).mem)

/-- Workspaces with different roots have the same owners in any order. -/
theorem Distinct.owner?_eq_of_mem_iff {ws' : Workspaces} (h : Distinct ws) (h' : Distinct ws')
    (hmem : ∀ w, w ∈ ws' ↔ w ∈ ws) (p : Path) : ws'.owner? p = ws.owner? p := by
  refine Option.ext fun w => ?_
  rw [h.owner?_eq_some_iff, h'.owner?_eq_some_iff]
  constructor
  · exact fun hw => ⟨(hmem w).1 hw.mem, hw.above, fun v hv => hw.longest v ((hmem v).2 hv)⟩
  · exact fun hw => ⟨(hmem w).2 hw.mem, hw.above, fun v hv => hw.longest v ((hmem v).1 hv)⟩

/-- **Every path has one owner.** After any changes, the registered roots are different places, each
with the workspace that the last change there has left. A path has no owner exactly if no registered
root lies above it; otherwise its owner is the one workspace whose root is the longest above it.
Changes that leave the same at every root, such as the same ones with different roots in another
order, lead to the same owners. -/
theorem every_path_has_one_owner (changes : List Change) :
    (registered changes).Pairwise (fun v w => v.root.components ≠ w.root.components) ∧
      (∀ w, w ∈ registered changes ↔ lastAt? changes w.root = some w) ∧
      (∀ p, (registered changes).owner? p = none ↔
        ∀ w ∈ registered changes, ¬w.root.components <+: p.components) ∧
      (∀ p, (∃ w ∈ registered changes, w.root.components <+: p.components) →
        ∃ w, (registered changes).owner? p = some w ∧ (registered changes).IsInnermost p w ∧
          ∀ v, (registered changes).IsInnermost p v → v = w) ∧
      ∀ changes', (∀ root, lastAt? changes' root = lastAt? changes root) →
        ∀ p, (registered changes').owner? p = (registered changes).owner? p := by
  have hdistinct := distinct_registered changes
  refine ⟨hdistinct.imp fun hne heq => hne (Path.same_iff.2 heq),
    fun w => mem_registered_iff changes, fun p => owner?_eq_none_iff, fun p hp =>
      ?_, fun changes' hlast p => ?_⟩
  · obtain ⟨w, hw, habove⟩ := hp
    obtain ⟨v, hv⟩ := exists_owner? hw (Path.isUnder_iff.2 habove)
    have hinner := isInnermost_of_owner? hv
    exact ⟨v, hv, hinner, fun u hu => hdistinct.eq_of_isInnermost hu hinner⟩
  · refine hdistinct.owner?_eq_of_mem_iff (distinct_registered changes') (fun w => ?_) p
    rw [mem_registered_iff, mem_registered_iff, hlast]

/-- A root inside another one, which is given up and registered again in the second run. -/
theorem every_path_has_one_owner_of_nested_roots :
    let outer := Workspace.empty ⟨"/w"⟩ default
    let nested := Workspace.empty ⟨"/w/n/"⟩ default
    let changes := [Change.add outer, .add nested]
    let changes' := [Change.add outer, .add nested, .remove ⟨"/w/"⟩, .add outer]
    let p : Path := ⟨"/w/n/a"⟩
    (∃ w ∈ registered changes, w.root.components <+: p.components) ∧
      (∀ root, lastAt? changes' root = lastAt? changes root) ∧
      (registered changes).owner? p = some nested ∧
        (registered changes').owner? p = some nested := by
  intro outer nested changes changes' p
  have hapart : outer.root.same nested.root = false := by decide
  have hregistered : registered changes = [outer, nested] := by
    simp [registered, changes, change, Workspaces.add, remove, hapart]
  have hinner : (registered changes).IsInnermost p nested := by
    refine ⟨by simp [hregistered], by decide, fun v hv _ => ?_⟩
    rw [hregistered] at hv
    rcases List.mem_pair.1 hv with rfl | rfl <;> decide
  have hlast : ∀ root, lastAt? changes' root = lastAt? changes root := by
    intro root
    have hslash : Path.same ⟨"/w/"⟩ root = Path.same ⟨"/w"⟩ root := by
      rw [Path.same, Path.same]; rfl
    have hone : Path.same ⟨"/w"⟩ root = true → Path.same ⟨"/w/n/"⟩ root = false := by
      intro hw
      by_contra hn
      have hsame := Path.same_trans hw (Path.same_symm (by simpa using hn))
      exact absurd hsame (by decide)
    cases hw : Path.same ⟨"/w"⟩ root with
    | true =>
      simp [lastAt?, changes, changes', outer, nested, Change.root, Workspace.empty, hw, hone hw]
    | false =>
      simp [lastAt?, changes, changes', outer, nested, Change.root, Workspace.empty, hw, hslash]
  obtain ⟨-, -, -, hone, horder⟩ := every_path_has_one_owner changes
  have habove : ∃ w ∈ registered changes, w.root.components <+: p.components :=
    ⟨nested, hinner.mem, hinner.above⟩
  obtain ⟨w, howner, -, hunique⟩ := hone p habove
  rw [← hunique nested hinner] at howner
  exact ⟨habove, hlast, howner, (horder changes' hlast p).trans howner⟩

end TypedNotation.Workspaces
