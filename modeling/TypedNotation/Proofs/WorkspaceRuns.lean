import Mathlib.Data.List.Induction
import Mathlib.Data.List.Pairwise
import TypedNotation.Proofs.Freshness

/-!
# Several workspaces

Workspaces are registered and dropped while documents are read and written, and what happens to a
document goes to the workspace that owns its path at that moment. Here all of this is a list of
events, and the workspaces after it are a fold.

Two things carry over to every such run. The roots stay different places
(`Workspaces.distinct_run`), so a root tells a workspace. And every workspace has gone through a run
of its own, of operations on paths that it contains (`Workspaces.exists_run`): what holds of all
runs of a single workspace holds of each of several. Both rest on what one event can do, once told
forwards (`exists_mem_step`) and once backwards (`mem_step_cases`).
-/

namespace TypedNotation

open List Workspace

/-! ### Roots -/

namespace Path

variable {p q root root' : Path}

/-- A path is under a root that its components start with. -/
theorem isUnder_iff : p.isUnder root = true ↔ root.components <+: p.components := by
  rw [isUnder, isPrefixOf_iff_prefix]

/-- Paths of one place are under the same roots. -/
theorem isUnder_congr (h : p.same q = true) (root : Path) : p.isUnder root = q.isUnder root := by
  rw [isUnder, isUnder, same_iff.1 h]

/-- Of two roots above one path, the shorter one is above the longer one. -/
theorem isUnder_of_isUnder (h : p.isUnder root = true) (h' : p.isUnder root' = true)
    (hle : root'.components.length ≤ root.components.length) : root.isUnder root' = true :=
  isUnder_iff.2 (prefix_of_prefix_length_le (isUnder_iff.1 h') (isUnder_iff.1 h) hle)

end Path

namespace Workspace

@[simp] theorem ensureIndex_root (w : Workspace) : w.ensureIndex.root = w.root := by
  unfold ensureIndex
  split <;> rfl

@[simp] theorem analysis_root (w : Workspace) (p : Path) : (w.analysis p).2.root = w.root := by
  obtain ⟨results, h, -, -⟩ := analysis_snd w p
  rw [h]
  exact ensureIndex_root w

/-- No operation moves a workspace. -/
theorem step_root (w : Workspace) (op : Operation) : (w.step op).2.root = w.root := by
  have hmoves := moves_step w op
  generalize (w.step op).2 = v at hmoves ⊢
  induction hmoves with
  | start => rfl
  | ensureIndex _ ih => exact (ensureIndex_root _).trans ih
  | analysis _ _ ih => exact (analysis_root _ _).trans ih
  | setTexts _ _ _ _ ih | forget _ _ _ ih | setSettings _ _ _ ih => exact ih
  | clear _ _ ih | wait _ _ ih => exact ih

/-- No operation changes the root. -/
theorem run_root (w : Workspace) (ops : List Operation) : (w.run ops).root = w.root := by
  induction ops generalizing w with
  | nil => rfl
  | cons op ops ih => exact (ih _).trans (step_root w op)

end Workspace

namespace Workspaces

/-! ### Owners -/

variable {ws : Workspaces} {v w : Workspace} {p q : Path}

/-- The innermost of some workspaces is one of them. -/
theorem foldl_inner_mem (w : Workspace) (rest : List Workspace) :
    rest.foldl inner w ∈ w :: rest := by
  induction rest generalizing w with
  | nil => simp
  | cons v rest ih =>
    rw [foldl_cons]
    have hinner : inner w v = w ∨ inner w v = v := by
      unfold inner
      split <;> simp
    -- the fold goes on from one of the first two
    rcases mem_cons.1 (ih (inner w v)) with heq | hmem
    · rw [heq]
      rcases hinner with h | h <;> simp [h]
    · simp [hmem]

/-- No root is longer than that of the innermost. -/
theorem length_le_foldl_inner (w : Workspace) (rest : List Workspace) :
    ∀ v ∈ w :: rest,
      v.root.components.length ≤ (rest.foldl inner w).root.components.length := by
  induction rest generalizing w with
  | nil => simp
  | cons u rest ih =>
    intro v hv
    have hinner : w.root.components.length ≤ (inner w u).root.components.length ∧
        u.root.components.length ≤ (inner w u).root.components.length := by
      unfold inner
      split <;> omega
    have hfirst := ih (inner w u) _ (mem_cons_self)
    rw [foldl_cons]
    rcases mem_cons.1 hv with rfl | hv
    · omega
    · rcases mem_cons.1 hv with rfl | hv
      · omega
      · exact ih (inner w u) v (mem_cons_of_mem _ hv)

/-- The owner of a path contains it, and no workspace that contains it has a longer root. -/
theorem owner?_eq_some (h : ws.owner? p = some w) :
    w ∈ ws ∧ w.contains p = true ∧ ∀ v ∈ ws, v.contains p = true →
      v.root.components.length ≤ w.root.components.length := by
  unfold owner? at h
  split at h
  next => cases h
  next first rest hfilter =>
    obtain rfl := Option.some.inj h
    have hmem := foldl_inner_mem first rest
    rw [← hfilter] at hmem
    obtain ⟨hws, hcontains⟩ := mem_filter.1 hmem
    refine ⟨hws, hcontains, fun v hv hp => ?_⟩
    refine length_le_foldl_inner first rest v ?_
    rw [← hfilter]
    exact mem_filter.2 ⟨hv, hp⟩

/-- A path that some workspace contains has an owner. -/
theorem exists_owner? (hw : w ∈ ws) (hp : w.contains p = true) : ∃ v, ws.owner? p = some v := by
  unfold owner?
  have hmem : w ∈ ws.filter (·.contains p) := mem_filter.2 ⟨hw, hp⟩
  cases hfilter : ws.filter (·.contains p) with
  | nil => simp [hfilter] at hmem
  | cons first rest => exact ⟨_, rfl⟩

/-- Paths of one place have the same owner. -/
theorem owner?_congr (h : p.same q = true) (ws : Workspaces) : ws.owner? p = ws.owner? q := by
  have hcontains : (fun w : Workspace => w.contains p) = fun w => w.contains q :=
    funext fun w => Path.isUnder_congr h w.root
  simp only [owner?, hcontains]

/-- Who owns a path depends on the roots alone. -/
theorem owner?_map {f : Workspace → Workspace} (hf : ∀ w, (f w).root = w.root) (ws : Workspaces)
    (p : Path) : owner? (ws.map f) p = (ws.owner? p).map f := by
  have hfilter : (ws.map f).filter (·.contains p) = (ws.filter (·.contains p)).map f := by
    rw [filter_map]
    refine congrArg (List.map f) (filter_congr fun w _ => ?_)
    simp [Workspace.contains, hf]
  have hfold : ∀ (rest : List Workspace) (w : Workspace),
      (rest.map f).foldl inner (f w) = f (rest.foldl inner w) := by
    intro rest
    induction rest with
    | nil => exact fun w => rfl
    | cons v rest ih =>
      intro w
      have hinner : inner (f w) (f v) = f (inner w v) := by
        unfold inner
        rw [hf, hf]
        split <;> rfl
      rw [map_cons, foldl_cons, foldl_cons, hinner, ih]
  unfold owner?
  rw [hfilter]
  cases ws.filter (·.contains p) with
  | nil => rfl
  | cons first rest => exact congrArg some (hfold rest first)

/-! ### Events -/

/-- What can happen to some workspaces. -/
inductive Event where
  /-- A workspace with some documents on disk is registered. -/
  | load (root : Path) (sources : List Source) (settings : Settings)
  | drop (root : Path)
  /-- Something is done with the workspace that owns a path, and with no other path. -/
  | act (p : Path) (op : Operation) (hop : ∀ q ∈ op.path?, q = p)
  | setSettings (settings : Settings) (now : Nat)
  | poll (now : Nat)

namespace Event

/-- The editor opens a document or edits it. -/
def edit (p : Path) (text : String) (now : Nat) : Event :=
  .act p (.edit p text now) (by simp [Operation.path?])

/-- The operation that a workspace may have to do. -/
def operation? : Event → Option Operation
  | load _ _ _ | drop _ => none
  | act _ op _ => some op
  | setSettings settings now => some (.setSettings settings now)
  | poll now => some (.poll now)

/-- Whether the event takes the workspace of a root away, perhaps to put another in its place. -/
def replaces (root : Path) : Event → Bool
  | load r _ _ | drop r => r.same root
  | _ => false

end Event

/-- The workspaces after an event. -/
def step (ws : Workspaces) : Event → Workspaces
  | .load root sources settings => ws.add (.ofSources root sources settings)
  | .drop root => (ws.remove root).2
  | .act p op _ => (ws.withOwner p (·.step op)).2
  | .setSettings settings now => ws.setSettings settings now
  | .poll now => (ws.poll now).2

/-- The workspaces after some events, none being registered before. -/
def run (events : List Event) : Workspaces :=
  events.foldl step []

theorem run_concat (events : List Event) (e : Event) :
    run (events ++ [e]) = (run events).step e := by
  rw [run, foldl_append]
  rfl

/-! ### One event -/

/-- Workspaces whose roots are different places. -/
def Distinct (ws : Workspaces) : Prop :=
  ws.Pairwise fun v w => ¬v.root.same w.root

/-- There is one workspace for a root. -/
theorem Distinct.eq_of_same (h : Distinct ws) (hv : v ∈ ws) (hw : w ∈ ws)
    (hroot : v.root.same w.root = true) : v = w := by
  by_contra hne
  have : Std.Symm fun v w : Workspace => ¬v.root.same w.root :=
    ⟨fun _ _ hn hs => hn (Path.same_symm hs)⟩
  exact h.forall hv hw hne hroot

theorem Distinct.map (h : Distinct ws) {f : Workspace → Workspace}
    (hf : ∀ w ∈ ws, (f w).root.same w.root = true) : Distinct (ws.map f) := by
  refine pairwise_map.2 (h.imp_of_mem fun {v w} hv hw hne hs => hne ?_)
  exact Path.same_trans (Path.same_symm (hf v hv)) (Path.same_trans hs (hf w hw))

theorem poll_snd (now : Nat) (ws : Workspaces) :
    (ws.poll now).2 = ws.map fun w => (w.poll now).2 := by
  induction ws with
  | nil => rfl
  | cons w rest ih => exact congrArg ((w.poll now).2 :: ·) ih

theorem remove_sublist (ws : Workspaces) (root : Path) : (ws.remove root).2.Sublist ws :=
  eraseP_sublist

/-- A root that is dropped is registered no longer. -/
theorem Distinct.not_same_of_mem_remove (h : Distinct ws) {root : Path}
    (hw : w ∈ (ws.remove root).2) : ¬w.root.same root := by
  intro hs
  obtain ⟨u, before, after, hbefore, hu, hws, herase⟩ :=
    exists_of_eraseP (p := (·.root.same root)) ((remove_sublist ws root).subset hw) hs
  have hmem : w ∈ before ++ after := herase ▸ hw
  -- the workspace that was taken away is the only one with this root
  subst hws
  rcases mem_append.1 hmem with hmem | hmem
  · exact hbefore w hmem hs
  · have hafter := (pairwise_append.1 h).2.1
    exact rel_of_pairwise_cons hafter hmem (Path.same_trans hu (Path.same_symm hs))

theorem mem_remove_of_not_same {root : Path} (hw : w ∈ ws) (hroot : ¬w.root.same root) :
    w ∈ (ws.remove root).2 :=
  (mem_eraseP_of_neg (p := fun v : Workspace => v.root.same root) hroot).2 hw

/-- Removing a workspace keeps the roots distinct. -/
theorem Distinct.remove (h : Distinct ws) (root : Path) : Distinct (ws.remove root).2 :=
  h.sublist (remove_sublist ws root)

/-- Adding a workspace keeps the roots distinct. -/
theorem Distinct.add (h : Distinct ws) (w : Workspace) : Distinct (ws.add w) := by
  refine pairwise_append.2 ⟨h.remove w.root, pairwise_singleton _ _, ?_⟩
  intro v hv u hu
  obtain rfl := mem_singleton.1 hu
  exact h.not_same_of_mem_remove hv

/-- What an operation on the owner of a path makes of each workspace. -/
theorem act_eq_map (h : Distinct ws) (p : Path) (op : Operation) :
    (ws.withOwner p (·.step op)).2 = ws.map fun v =>
      if (ws.owner? p).any (·.root.same v.root) then (v.step op).2 else v := by
  unfold withOwner
  cases howner : ws.owner? p with
  | none => simp
  | some w =>
    obtain ⟨hw, -, -⟩ := owner?_eq_some howner
    refine map_congr_left fun v hv => ?_
    -- the changed workspace goes where its root is, and its root has not changed
    rw [step_root]
    by_cases hroot : v.root.same w.root = true
    · obtain rfl := h.eq_of_same hv hw hroot
      simp [Path.same_refl]
    · have hroot' : ¬w.root.same v.root := fun hs => hroot (Path.same_symm hs)
      simp [hroot, hroot']

/-- **What an event does to one workspace.** A workspace whose root is not replaced is there
afterwards; it has done nothing or the operation of the event. -/
theorem Distinct.exists_mem_step (h : Distinct ws) (hw : w ∈ ws) {e : Event}
    (he : e.replaces w.root = false) :
    ∃ ops : List Operation, w.run ops ∈ ws.step e ∧
      ∀ op ∈ ops, e.operation? = some op := by
  have hroot : ∀ root : Path, root.same w.root = false → ¬w.root.same root := by
    intro root hne hs
    simp [Path.same_symm hs] at hne
  cases e with
  | load root sources settings =>
    refine ⟨[], mem_append_left _ ?_, by simp⟩
    exact mem_remove_of_not_same hw (hroot root he)
  | drop root => exact ⟨[], mem_remove_of_not_same hw (hroot root he), by simp⟩
  | act p op hop =>
    rw [step, act_eq_map h]
    by_cases howner : ((ws.owner? p).any (·.root.same w.root)) = true
    · exact ⟨[op], mem_map.2 ⟨w, hw, by simp [howner, Workspace.run]⟩, by simp [Event.operation?]⟩
    · exact ⟨[], mem_map.2 ⟨w, hw, by simp [howner, Workspace.run]⟩, by simp⟩
  | setSettings settings now =>
    exact ⟨[.setSettings settings now], mem_map.2 ⟨w, hw, rfl⟩, by simp [Event.operation?]⟩
  | poll now =>
    refine ⟨[.poll now], ?_, by simp [Event.operation?]⟩
    rw [step, poll_snd]
    exact mem_map.2 ⟨w, hw, rfl⟩

/-- **Where the workspaces after an event come from**: one was registered by it, or was there before
and has done operations on paths that it contains. -/
theorem Distinct.mem_step_cases (h : Distinct ws) {e : Event} (hw : w ∈ ws.step e) :
    (∃ root sources settings, e = .load root sources settings ∧
      w = .ofSources root sources settings) ∨
    ∃ v ∈ ws, ∃ ops : List Operation, w = v.run ops ∧
      ∀ op ∈ ops, ∀ p ∈ op.path?, v.contains p = true := by
  cases e with
  | load root sources settings =>
    rcases mem_append.1 hw with hw | hw
    · exact .inr ⟨w, (remove_sublist ws root).subset hw, [], rfl, by simp⟩
    · exact .inl ⟨root, sources, settings, rfl, mem_singleton.1 hw⟩
  | drop root => exact .inr ⟨w, (remove_sublist ws root).subset hw, [], rfl, by simp⟩
  | act p op hop =>
    rw [step, act_eq_map h] at hw
    obtain ⟨v, hv, rfl⟩ := mem_map.1 hw
    refine .inr ⟨v, hv, ?_⟩
    split
    next howner =>
      refine ⟨[op], rfl, ?_⟩
      obtain ⟨u, hu, hroot⟩ := (Option.any_eq_true _ _).1 howner
      obtain ⟨hmem, hcontains, -⟩ := owner?_eq_some hu
      obtain rfl := h.eq_of_same hmem hv hroot
      intro op' hop' q hq
      obtain rfl := mem_singleton.1 hop'
      rwa [hop q hq]
    next => exact ⟨[], rfl, by simp⟩
  | setSettings settings now =>
    obtain ⟨v, hv, rfl⟩ := mem_map.1 hw
    exact .inr ⟨v, hv, [.setSettings settings now], rfl, by simp [Operation.path?]⟩
  | poll now =>
    rw [step, poll_snd] at hw
    obtain ⟨v, hv, rfl⟩ := mem_map.1 hw
    exact .inr ⟨v, hv, [.poll now], rfl, by simp [Operation.path?]⟩

/-- Every event keeps the roots distinct. -/
theorem Distinct.step (h : Distinct ws) (e : Event) : Distinct (ws.step e) := by
  have hmap : ∀ f : Workspace → Workspace, (∀ w ∈ ws, (f w).root = w.root) → Distinct (ws.map f) :=
    fun f hf => h.map fun w hw => by rw [hf w hw]; exact Path.same_refl _
  cases e with
  | load root sources settings => exact h.add _
  | drop root => exact h.remove root
  | act p op hop =>
    rw [Workspaces.step, act_eq_map h]
    refine hmap _ fun w _ => ?_
    split
    · exact step_root w op
    · rfl
  | setSettings settings now => exact hmap _ fun _ _ => rfl
  | poll now =>
    rw [Workspaces.step, poll_snd]
    exact hmap _ fun w _ => step_root w (.poll now)

/-! ### Runs -/

/-- The roots are distinct after any events. -/
theorem Distinct.foldl_step (h : Distinct ws) (events : List Event) :
    Distinct (events.foldl Workspaces.step ws) := by
  induction events generalizing ws with
  | nil => exact h
  | cons e events ih => exact ih (h.step e)

/-- The roots of workspaces are different places, whatever happens. -/
theorem distinct_run (events : List Event) : Distinct (run events) :=
  Distinct.foldl_step .nil events

/-- Each of several workspaces has gone through a run of its own, since it was registered, of
operations on paths that it contains. -/
theorem exists_run {events : List Event} (hw : w ∈ run events) :
    ∃ root sources settings ops, .load root sources settings ∈ events ∧
      w = (ofSources root sources settings).run ops ∧
      ∀ op ∈ ops, ∀ p ∈ op.path?, p.isUnder root = true := by
  -- the last event has registered the workspace, or has lengthened a run that it had
  induction events using List.reverseRecOn generalizing w with
  | nil => cases hw
  | append_singleton events e ih =>
    rw [run_concat] at hw
    rcases (distinct_run events).mem_step_cases hw with ⟨root, sources, settings, rfl, rfl⟩ |
      ⟨v, hv, ops, rfl, hops⟩
    · exact ⟨root, sources, settings, [], by simp, rfl, by simp⟩
    · obtain ⟨root, sources, settings, ops', hload, rfl, hops'⟩ := ih hv
      refine ⟨root, sources, settings, ops' ++ ops, by simp [hload], ?_, ?_⟩
      · rw [Workspace.run, Workspace.run, Workspace.run, foldl_append]
      · intro op hop p hp
        rcases mem_append.1 hop with hop | hop
        · exact hops' op hop p hp
        · have hcontains := hops op hop p hp
          rwa [Workspace.contains, Workspace.run_root] at hcontains

end Workspaces

end TypedNotation
