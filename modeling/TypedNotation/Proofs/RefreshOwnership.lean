import TypedNotation.Proofs.WorkspaceRuns

/-!
# Who publishes what

A refresh goes through all workspaces whose time has come, and each of them publishes the findings
of the documents that it holds: what it finds when it is asked for the path right afterwards
(`Workspace.Coherent.poll_of_due`).

A workspace may hold documents that it does not own. When it is registered it takes in all documents
below its root, and those of a root further inside stay with it, as they were, while what happens to
them goes to their owner. So a path may be published twice, with old findings and with new ones
(`Workspaces.nested_root_is_published_twice`). If each document is held by its owner alone, which is
so if no root lies inside another, then all findings are the owner's and no path is published twice
(`Workspaces.refresh_publishes_by_owner`).
-/

namespace TypedNotation

open List Workspace

theorem PathMap.exists_find?_of_mem {α : Type} {m : PathMap α} {p : Path} (h : p ∈ m.paths) :
    ∃ v, m.find? p = some v := by
  obtain ⟨e, he, rfl⟩ := mem_map.1 h
  have hsome : (List.find? (·.1.same e.1) m).isSome :=
    find?_isSome.2 ⟨e, he, Path.same_refl e.1⟩
  obtain ⟨e', he'⟩ := Option.isSome_iff_exists.1 hsome
  exact ⟨e'.2, congrArg (Option.map Prod.snd) he'⟩

/-- A place is listed once. -/
theorem PathMap.Sorted.eq_of_same {α : Type} {m : PathMap α} (h : m.Sorted) {p q : Path}
    (hp : p ∈ m.paths) (hq : q ∈ m.paths) (hs : p.same q = true) : p = q := by
  by_contra hne
  have : Std.Symm fun p q : Path => ¬p.same q := ⟨fun _ _ hn hs => hn (Path.same_symm hs)⟩
  exact h.pairwise_not_same.forall hp hq hne hs

namespace Workspace

variable {w : Workspace} {p : Path}

/-- A read finds again what it found. -/
theorem analysis_again (w : Workspace) (p : Path) :
    ((w.analysis p).2.analysis p).1 = (w.analysis p).1 := by
  -- the first thing that a read does is to bring the index up to date
  have hstale := ensureIndex_indexStale w
  have hw : w.analysis p = w.ensureIndex.analysis p := by
    rw [analysis, analysis, ensureIndex_of_not_stale _ hstale]
  rw [hw]
  generalize w.ensureIndex = v at hstale
  have hv := ensureIndex_of_not_stale v hstale
  cases htext : v.text? p with
  | none =>
    have hread : v.analysis p = (none, v) := by simp [analysis, hv, htext]
    rw [hread, hread]
  | some text =>
    cases hold : (v.results.find? p).filter (v.isFresh text) with
    | some r =>
      have hread : v.analysis p = (some r.2, v) := by simp [analysis, hv, htext, hold]
      rw [hread, hread]
    | none =>
      generalize ha : Analysis.run p.text text v.index v.settings = a
      generalize hu : { v with results := v.results.insert p (v.generation, a) } = u
      have hread : v.analysis p = (some a, u) := by
        simp [analysis, hv, htext, hold, ha, hu]
      -- what has just been made is current
      have hfind : (u.results.find? p).filter (u.isFresh text) = some (v.generation, a) := by
        simp [← hu, PathMap.find?_insert, Path.same_refl, isFresh, ← ha, Analysis.run,
          Document.parse]
      have hutext : u.text? p = some text := by rw [← hu]; exact htext
      have hustale : u.indexStale = false := by rw [← hu]; exact hstale
      rw [hread, analysis_fst, hutext, ensureIndex_of_not_stale u hustale, Option.map_some, hfind]
      rfl

/-- Reading some paths does not change what is read at a path that is none of their other
spellings. -/
theorem validateEach_analysis (w : Workspace) {ps : List Path} (h : ∀ q ∈ ps, q.same p → q = p) :
    ((w.validateEach ps).2.analysis p).1 = (w.analysis p).1 := by
  induction ps generalizing w with
  | nil => rfl
  | cons q ps ih =>
    -- the path may be among those that are read, and is then read a second time
    have hfirst : ((w.analysis q).2.analysis p).1 = (w.analysis p).1 := by
      by_cases hqp : q.same p = true
      · rw [h q (by simp) hqp]
        exact analysis_again w p
      · exact analysis_frame w q p hqp
    exact (ih (w.analysis q).2 fun q' hq' => h q' (mem_cons_of_mem _ hq')).trans hfirst

/-- A document that is held has findings. -/
theorem exists_validate (hp : p ∈ w.documents.paths) : ∃ found, (w.validate p).1 = some found := by
  obtain ⟨texts, hfind⟩ := PathMap.exists_find?_of_mem hp
  change ∃ found, (w.analysis p).1.map (·.diagnostics) = some found
  rw [analysis_fst, text?, hfind]
  exact ⟨_, rfl⟩

theorem poll_documents (w : Workspace) (now : Nat) : (w.poll now).2.documents = w.documents :=
  congrArg Inputs.documents (step_inputs w (.poll now))

theorem poll_of_not_due {now : Nat} (h : (w.refresh.poll now).1 = false) :
    (w.poll now).1 = none := by
  simp [poll, h]

/-- **A refresh of one workspace** publishes for each document that it holds what is found when the
document is asked for right afterwards. -/
theorem Coherent.poll_of_due {paths : List Path} (h : Coherent paths w) {now : Nat}
    (hdue : (w.refresh.poll now).1 = true) :
    (w.poll now).1 = some (w.documents.paths.filterMap fun p =>
      ((w.poll now).2.validate p).1.map (p, ·)) := by
  -- the workspace that does the reading: it has no analyses left to use again
  generalize hv : { w with results := [], refresh := (w.refresh.poll now).2 } = v
  have hpoll : w.poll now = (some v.validateAll.1, v.validateAll.2) := by
    simp [poll, refreshAll, hdue, hv]
  have hcoherent : Coherent paths v := by
    rw [← hv]
    exact ⟨h.sorted, h.named, h.index_eq, by simp, by simp⟩
  have hdocuments : v.documents = w.documents := by rw [← hv]
  rw [hpoll, hcoherent.validateAll_fst, ← hdocuments]
  refine congrArg some (filterMap_congr fun p hp => ?_)
  -- no other spelling of the path is read
  have hread : (v.validateAll.2.analysis p).1 = (v.analysis p).1 :=
    validateEach_analysis v fun q hq => hcoherent.sorted.eq_of_same hq hp
  change _ = ((v.validateAll.2.analysis p).1.map (·.diagnostics)).map (p, ·)
  rw [hread, Option.map_map]
  rfl

end Workspace

namespace Workspaces

variable {ws : Workspaces} {v w : Workspace} {p : Path} {now : Nat}

/-! ### What workspaces hold -/

/-- Whether the documents that are registered with a root lie below it. -/
def Event.isBelowRoot : Event → Bool
  | load root sources _ => sources.all (·.1.isUnder root)
  | _ => true

/-- Each of several workspaces is coherent. All paths that have been named to it are below its root,
but for those that it was registered with. -/
theorem exists_coherent {events : List Event} (hw : w ∈ run events) :
    ∃ sources settings paths, .load w.root sources settings ∈ events ∧ w.Coherent paths ∧
      ∀ p ∈ paths, p ∈ sources.map (·.1) ∨ w.contains p = true := by
  obtain ⟨root, sources, settings, ops, hload, rfl, hops⟩ := exists_run hw
  have hroot : ((ofSources root sources settings).run ops).root = root :=
    run_root _ ops
  refine ⟨sources, settings, sources.map (·.1) ++ ops.flatMap (·.path?.toList), ?_, ?_, ?_⟩
  · rwa [hroot]
  · refine (coherent_ofSources root sources settings
      fun p hp => mem_append_left _ hp).run ops fun op hop p hp => ?_
    refine mem_append_right _ (mem_flatMap.2 ⟨op, hop, ?_⟩)
    exact Option.mem_toList.2 hp
  · intro p hp
    rcases mem_append.1 hp with hp | hp
    · exact .inl hp
    · obtain ⟨op, hop, hp⟩ := mem_flatMap.1 hp
      rw [Workspace.contains, hroot]
      exact .inr (hops op hop p (Option.mem_toList.1 hp))

theorem pairwise_documents {events : List Event} (hw : w ∈ run events) :
    w.documents.paths.Pairwise fun p q => ¬p.same q := by
  obtain ⟨_, _, _, -, hcoherent, -⟩ := exists_coherent hw
  exact hcoherent.sorted.pairwise_not_same

/-- Workspaces that are registered with documents below their roots hold no others. -/
theorem contains_of_mem_documents {events : List Event} (h : ∀ e ∈ events, e.isBelowRoot = true)
    (hw : w ∈ run events) (hp : p ∈ w.documents.paths) : w.contains p = true := by
  obtain ⟨sources, settings, paths, hload, hcoherent, hpaths⟩ := exists_coherent hw
  rcases hpaths p (hcoherent.named p hp) with hmem | hcontains
  · obtain ⟨source, hsource, rfl⟩ := mem_map.1 hmem
    exact all_eq_true.1 (h _ hload) source hsource
  · exact hcontains

/-- Workspaces none of whose roots lies inside another. -/
def Apart (ws : Workspaces) : Prop :=
  ws.Pairwise fun v w => ¬v.root.isUnder w.root ∧ ¬w.root.isUnder v.root

/-- If no root lies inside another, then a path is owned by the workspace that contains it. -/
theorem Apart.owner?_of_contains (h : Apart ws) (hw : w ∈ ws) (hp : w.contains p = true) :
    ws.owner? p = some w := by
  obtain ⟨v, hv⟩ := exists_owner? hw hp
  obtain ⟨hmem, hcontains, hinner⟩ := owner?_eq_some hv
  -- the owner's root is the longer one, and would lie inside the other
  have hunder : v.root.isUnder w.root = true :=
    Path.isUnder_of_isUnder hcontains hp (hinner w hw hp)
  have heq : v = w := by
    by_contra hne
    have : Std.Symm fun v w : Workspace => ¬v.root.isUnder w.root ∧ ¬w.root.isUnder v.root :=
      ⟨fun _ _ hn => hn.symm⟩
    exact (h.forall hmem hw hne).1 hunder
  rw [hv, heq]

/-! ### What is published -/

/-- The workspaces for which it is time. -/
def due (ws : Workspaces) (now : Nat) : Workspaces :=
  ws.filter fun w => (w.refresh.poll now).1

theorem mem_due (h : w ∈ ws.due now) : w ∈ ws ∧ (w.refresh.poll now).1 = true :=
  mem_filter.1 h

theorem poll_fst (now : Nat) (ws : Workspaces) :
    (ws.poll now).1 = (ws.due now).flatMap fun w => (w.poll now).1.getD [] := by
  induction ws with
  | nil => rfl
  | cons w ws ih =>
    have hcons : (Workspaces.poll now (w :: ws)).1 =
        (w.poll now).1.getD [] ++ (Workspaces.poll now ws).1 := rfl
    rw [hcons, ih, due, due, filter_cons]
    split
    next => rfl
    next hnot =>
      rw [poll_of_not_due (Bool.eq_false_iff.2 hnot)]
      rfl

/-- What a refresh makes of a path's owner. -/
theorem owner?_poll (ws : Workspaces) (now : Nat) (p : Path) :
    (ws.poll now).2.owner? p = (ws.owner? p).map fun w => (w.poll now).2 := by
  rw [poll_snd]
  exact owner?_map (fun w => step_root w (.poll now)) ws p

/-- The findings are those that the owner of the path gives. -/
def IsByOwner (ws : Workspaces) (e : Published) : Prop :=
  ∃ w, ws.owner? e.1 = some w ∧ (w.validate e.1).1 = some e.2

section Run

variable {events : List Event}

theorem mem_poll_iff {found : List Diagnostic} :
    (p, found) ∈ ((run events).poll now).1 ↔ ∃ w ∈ (run events).due now,
      p ∈ w.documents.paths ∧ ((w.poll now).2.validate p).1 = some found := by
  rw [poll_fst, mem_flatMap]
  refine exists_congr fun w => and_congr_right fun hw => ?_
  obtain ⟨_, _, _, -, hcoherent, -⟩ := exists_coherent (mem_due hw).1
  rw [hcoherent.poll_of_due (mem_due hw).2, Option.getD_some, mem_filterMap]
  simp

/-- The paths that are published are those of the documents that are held, workspace by
workspace. -/
theorem map_fst_poll :
    ((run events).poll now).1.map (·.1) = ((run events).due now).flatMap (·.documents.paths) := by
  rw [poll_fst, map_flatMap]
  refine flatMap_congr fun w hw => ?_
  obtain ⟨_, _, _, -, hcoherent, -⟩ := exists_coherent (mem_due hw).1
  rw [hcoherent.poll_of_due (mem_due hw).2, Option.getD_some, map_filterMap]
  -- each document that is held has findings
  have hsome : ∀ p ∈ w.documents.paths,
      (((w.poll now).2.validate p).1.map (p, ·)).map (·.1) = some p := by
    intro p hp
    rw [← w.poll_documents now] at hp
    obtain ⟨found, hfound⟩ := exists_validate hp
    rw [hfound]
    rfl
  rw [filterMap_congr hsome, filterMap_some]

/-- Documents that are held by their owners alone are published by them. -/
theorem isByOwner_of_mem_poll {e : Published}
    (h : ∀ w ∈ (run events).due now, ∀ p ∈ w.documents.paths, (run events).owner? p = some w)
    (he : e ∈ ((run events).poll now).1) : ((run events).poll now).2.IsByOwner e := by
  obtain ⟨w, hw, hp, hfound⟩ := mem_poll_iff.1 he
  refine ⟨(w.poll now).2, ?_, hfound⟩
  rw [owner?_poll, h w hw e.1 hp]
  rfl

/-- Documents that are held by their owners alone are published once. -/
theorem pairwise_poll
    (h : ∀ w ∈ (run events).due now, ∀ p ∈ w.documents.paths, (run events).owner? p = some w) :
    (((run events).poll now).1.map (·.1)).Pairwise fun p q => ¬p.same q := by
  rw [map_fst_poll, pairwise_flatMap]
  refine ⟨fun w hw => pairwise_documents (mem_due hw).1, ?_⟩
  have hdistinct : ((run events).due now).Pairwise fun v w => ¬v.root.same w.root :=
    (distinct_run events).sublist filter_sublist
  refine hdistinct.imp_of_mem fun {v w} hv hw hne p hp q hq hs => hne ?_
  -- one place has one owner
  have howner : some v = some w := by
    rw [← h v hv p hp, ← h w hw q hq, owner?_congr hs]
  rw [Option.some.inj howner]
  exact Path.same_refl _

end Run

/-- **What a refresh publishes.** Take the workspaces after any run. A refresh publishes the
documents of the workspaces for which it is time, each one once for each of them that holds it, with
the findings that this workspace has for it right afterwards. The owner of a path has its own
findings published. If only owners hold documents, then all findings are those of owners and no path
is published twice; and only owners hold documents if no root lies inside another and all documents
were registered below their roots. -/
theorem refresh_publishes_by_owner (events : List Event) (now : Nat) :
    let ws := run events
    let published := (ws.poll now).1
    let after := (ws.poll now).2
    published.map (·.1) = (ws.due now).flatMap (·.documents.paths) ∧
    (∀ w ∈ ws, w.documents.paths.Pairwise fun p q => ¬p.same q) ∧
    (∀ p found, (p, found) ∈ published ↔ ∃ w ∈ ws.due now,
      p ∈ w.documents.paths ∧ ((w.poll now).2.validate p).1 = some found) ∧
    (∀ p, after.owner? p = (ws.owner? p).map fun w => (w.poll now).2) ∧
    ((∀ w ∈ ws.due now, ∀ p ∈ w.documents.paths, ws.owner? p = some w) →
      (∀ e ∈ published, after.IsByOwner e) ∧
      (published.map (·.1)).Pairwise fun p q => ¬p.same q) ∧
    ((∀ e ∈ events, e.isBelowRoot = true) → ws.Apart →
      ∀ w ∈ ws, ∀ p ∈ w.documents.paths, ws.owner? p = some w) := by
  refine ⟨map_fst_poll, fun w => pairwise_documents, fun p found => mem_poll_iff,
    owner?_poll _ now, fun h => ⟨fun e => isByOwner_of_mem_poll h, pairwise_poll h⟩, ?_⟩
  intro hbelow hapart w hw p hp
  exact hapart.owner?_of_contains hw (contains_of_mem_documents hbelow hw hp)

/-- Two roots side by side, both with something to publish, one of them with a document that is
open. -/
theorem refresh_publishes_by_owner_of_siblings :
    let a : Path := ⟨"/v/a.thrd"⟩
    let b : Path := ⟨"/w/b.thrd"⟩
    let events : List Event := [.load ⟨"/v"⟩ [(a, "[,]")] {}, .load ⟨"/w"⟩ [] {},
      .edit a "[1]" 0, .edit b "2" 0]
    let published := ((run events).poll 5000).1
    published.map (·.1.text) = ["/v/a.thrd", "/w/b.thrd"] ∧
    (∀ e ∈ published, ((run events).poll 5000).2.IsByOwner e) ∧
    (published.map (·.1)).Pairwise fun p q => ¬p.same q := by
  intro a b events published
  have hbelow : ∀ e ∈ events, e.isBelowRoot = true := by decide +kernel
  have hapart : (run events).Apart := by
    unfold Apart
    decide +kernel
  obtain ⟨-, -, -, -, howned, hheld⟩ := refresh_publishes_by_owner events 5000
  refine ⟨by decide +kernel, howned fun w hw => ?_⟩
  exact hheld hbelow hapart w (mem_due hw).1

/-- A document below two roots. The editor's text has one fault and the text on disk has three,
which the outer workspace publishes as well. -/
theorem nested_root_is_published_twice :
    let a : Path := ⟨"/w/n/a.thrd"⟩
    let b : Path := ⟨"/w/b.thrd"⟩
    let events : List Event := [.load ⟨"/w"⟩ [(a, "[,]")] {}, .load ⟨"/w/n"⟩ [(a, "[,]")] {},
      .edit a "[1]" 0, .edit b "1" 0]
    let (published, after) := (run events).poll 5000
    published.map (fun e => (e.1.text, e.2.length)) =
      [("/w/b.thrd", 1), ("/w/n/a.thrd", 3), ("/w/n/a.thrd", 1)] ∧
    (after.owner? a).bind (fun w => (w.validate a).1.map List.length) = some 1 := by
  decide +kernel

end Workspaces

end TypedNotation
