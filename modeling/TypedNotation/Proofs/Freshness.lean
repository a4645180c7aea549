import Mathlib.Data.List.Basic
import TypedNotation.Proofs.PathMap
import TypedNotation.Workspace

/-!
# Results are current

A workspace keeps analyses and an index of types, and three things tell whether they may be used
again: the flag `indexStale`, the generation and the text. Here a run of operations is a fold, and
every answer given along it is compared with one computed from the texts and the settings alone
(`Operation.answerFromScratch`), which are read off the operations (`Operation.documents`,
`Operation.settings`).

**The invariant** is `Coherent`: an index that is not stale is the one of the present declarations,
no stored analysis is younger than the present generation, and one of the present generation is what
the present index and settings give for its text. An operation that changes the settings or makes
the index stale leads to a new generation before the next read. The invariant is proved for the few
moves that every operation is made of (`Moves`).

**Spelling.** Documents are found by place, but an analysis depends on the last part of the path's
text. The two disagree for a path that ends in a slash or in a lone dot, so an answer may be the one
for another spelling that was used before. `reads_are_current` says this exactly;
`trailing_slash_reads_another_name` is a run in which it shows.
-/

namespace TypedNotation

open List Workspace DocumentName PathMap

namespace Workspace

/-- What can be done with a workspace. -/
inductive Operation where
  | add (p : Path) (text : String) (now : Nat)
  | remove (p : Path) (now : Nat)
  | change (p : Path) (text : String) (now : Nat)
  /-- The editor opens a document or edits it. -/
  | edit (p : Path) (text : String) (now : Nat)
  | close (p : Path) (now : Nat)
  | setSettings (settings : Settings) (now : Nat)
  | ensureIndex
  | analysis (p : Path)
  | validate (p : Path)
  | validateAll
  | refresh
  | poll (now : Nat)
  | fixAll (p : Path)
  | completionsAt (p : Path) (position : Position)
  | hoverAt (p : Path) (position : Position)

/-- What an operation answers. -/
inductive Answer where
  | done
  | known (known : Bool)
  | analysis (found : Option Analysis)
  | findings (found : Option (List Diagnostic))
  | published (found : Option (List Published))
  | edits (found : Option (List Edit))
  | candidates (found : List Candidate)
  | hover (found : Option Hover)

/-- Does an operation. -/
def step (w : Workspace) : Operation → Answer × Workspace
  | .add p text now => (.done, w.addOnDisk p text now)
  | .remove p now => (w.removeOnDisk p now).map .known id
  | .change p text now => (w.changeOnDisk p text now).map .known id
  | .edit p text now => (w.editInEditor p text now).map (.findings ∘ some) id
  | .close p now => (.done, w.closeInEditor p now)
  | .setSettings settings now => (.done, w.setSettings settings now)
  | .ensureIndex => (.done, w.ensureIndex)
  | .analysis p => (w.analysis p).map .analysis id
  | .validate p => (w.validate p).map .findings id
  | .validateAll => w.validateAll.map (.published ∘ some) id
  | .refresh => w.refreshAll.map (.published ∘ some) id
  | .poll now => (w.poll now).map .published id
  | .fixAll p => (w.fixAll p).map .edits id
  | .completionsAt p position => (w.completionsAt p position).map .candidates id
  | .hoverAt p position => (w.hoverAt p position).map .hover id

/-- The workspace after some operations. -/
def run (w : Workspace) (ops : List Operation) : Workspace :=
  ops.foldl (fun w op => (w.step op).2) w

/-! ### Answers from scratch -/

/-- What analyses are made from. -/
structure Inputs where
  documents : PathMap DocumentTexts
  settings : Settings

/-- The texts and settings of a workspace. -/
def inputs (w : Workspace) : Inputs :=
  ⟨w.documents, w.settings⟩

@[simp] theorem inputs_documents (w : Workspace) : w.inputs.documents = w.documents := rfl

@[simp] theorem inputs_settings (w : Workspace) : w.inputs.settings = w.settings := rfl

namespace Inputs

/-- The types that the documents declare. -/
def types (i : Inputs) : TypeIndex :=
  Source.typeIndex (i.documents.map fun (p, texts) => (p, texts.text))

/-- The analysis of a document under a name. -/
def analyse (i : Inputs) (name p : Path) : Option Analysis :=
  (i.documents.find? p).map fun texts => .run name.text texts.text i.types i.settings

end Inputs

namespace Operation

/-- The path that an operation names. -/
def path? : Operation → Option Path
  | add p _ _ | remove p _ | change p _ _ | edit p _ _ | close p _ | analysis p | validate p
  | fixAll p | completionsAt p _ | hoverAt p _ => some p
  | setSettings _ _ | ensureIndex | validateAll | refresh | poll _ => none

/-- What an operation does to the texts. -/
def documents (m : PathMap DocumentTexts) : Operation → PathMap DocumentTexts
  | add p text _ => m.insert p { (m.find? p).getD {} with disk := some text }
  | remove p _ =>
    match m.find? p with
    | some texts => if texts.isOpen then m.insert p { texts with disk := none } else m.erase p
    | none => m
  | change p text _ =>
    match m.find? p with
    | some texts => m.insert p { texts with disk := some text }
    | none => m
  | edit p text _ => m.insert p { (m.find? p).getD {} with editor := some text }
  | close p _ =>
    match m.find? p with
    | some texts =>
      if texts.disk.isNone then m.erase p else m.insert p { texts with editor := none }
    | none => m
  | _ => m

/-- What an operation does to the settings. -/
def settings (s : Settings) : Operation → Settings
  | setSettings new _ => new
  | _ => s

/-- The texts and settings after an operation. -/
def inputs (i : Inputs) (op : Operation) : Inputs :=
  ⟨op.documents i.documents, op.settings i.settings⟩

/-- The answer of an operation, given the texts and settings before it, the timers, and what is read
at each path. -/
def answer (i : Inputs) (timers : Refresh) (read : Path → Option Analysis) (op : Operation) :
    Answer :=
  let types := (op.inputs i).types
  let all := (op.inputs i).documents.paths.filterMap fun p =>
    (read p).map fun a => (p, a.diagnostics)
  match op with
  | add _ _ _ | close _ _ | setSettings _ _ | ensureIndex => .done
  | remove p _ | change p _ _ => .known (i.documents.contains p)
  | edit p _ _ | validate p => .findings ((read p).map (·.diagnostics))
  | analysis p => .analysis (read p)
  | validateAll | refresh => .published (some all)
  | poll now => .published (if (timers.poll now).1 then some all else none)
  | fixAll p => .edits ((read p).map (·.fixAll))
  | completionsAt p position =>
    .candidates (((read p).map (·.completionsAt types position)).getD [])
  | hoverAt p position => .hover ((read p).bind (·.hoverAt types position))

/-- The answer of an operation from texts and settings alone, each document being analysed under the
name that `spell` gives for its path. -/
def answerFromScratch (i : Inputs) (timers : Refresh) (spell : Path → Path) (op : Operation) :
    Answer :=
  op.answer i timers fun p => (op.inputs i).analyse (spell p) p

end Operation

/-! ### What a read does -/

section Read

variable (w : Workspace) (p q : Path)

@[simp] theorem ensureIndex_documents : w.ensureIndex.documents = w.documents := by
  unfold Workspace.ensureIndex
  split <;> rfl

@[simp] theorem ensureIndex_settings : w.ensureIndex.settings = w.settings := by
  unfold Workspace.ensureIndex
  split <;> rfl

/-- Making the index changes neither texts nor settings. -/
theorem ensureIndex_inputs : w.ensureIndex.inputs = w.inputs := by
  rw [inputs, ensureIndex_documents, ensureIndex_settings, inputs]

@[simp] theorem ensureIndex_results : w.ensureIndex.results = w.results := by
  unfold Workspace.ensureIndex
  split <;> rfl

@[simp] theorem ensureIndex_indexStale : w.ensureIndex.indexStale = false := by
  unfold Workspace.ensureIndex
  split <;> simp_all

/-- An index that is not stale is kept. -/
theorem ensureIndex_of_not_stale (h : w.indexStale = false) : w.ensureIndex = w := by
  simp [Workspace.ensureIndex, h]

/-- What is found at a path, once the index is up to date. -/
theorem analysis_fst :
    (w.analysis p).1 = (w.text? p).map fun text =>
      (((w.results.find? p).filter (w.ensureIndex.isFresh text)).map (·.2)).getD
        (.run p.text text w.ensureIndex.index w.settings) := by
  unfold analysis text?
  simp only [ensureIndex_documents, ensureIndex_results, ensureIndex_settings]
  cases (w.documents.find? p).map (·.text) with
  | none => rfl
  | some text =>
    cases hf : (w.results.find? p).filter (w.ensureIndex.isFresh text) <;> simp [hf]

/-- A read leaves all but the stored analyses as they are after bringing the index up to date, and
of those it changes only the one at its place. -/
theorem analysis_snd :
    ∃ results : PathMap (Nat × Analysis),
      (w.analysis p).2 = { w.ensureIndex with results } ∧
      (∀ q, ¬p.same q → results.find? q = w.results.find? q) ∧
      ∀ q g a, results.find? q = some (g, a) → w.results.find? q = some (g, a) ∨
        p.same q ∧ g = w.ensureIndex.generation ∧
          ∃ text, a = .run p.text text w.ensureIndex.index w.settings := by
  unfold analysis
  rw [← ensureIndex_results w, ← ensureIndex_settings w]
  generalize w.ensureIndex = v
  -- the analyses are kept unless a known document has none that can be used again
  cases ht : v.text? p with
  | none =>
    simp only [ht]
    exact ⟨v.results, rfl, fun _ _ => rfl, fun _ _ _ h => .inl h⟩
  | some text =>
    cases hf : (v.results.find? p).filter (v.isFresh text) with
    | some r =>
      simp only [ht, hf]
      exact ⟨v.results, rfl, fun _ _ => rfl, fun _ _ _ h => .inl h⟩
    | none =>
      simp only [ht, hf]
      refine ⟨_, rfl, fun q hq => ?_, fun q g a h => ?_⟩
      · rw [find?_insert, if_neg hq]
      · rw [find?_insert] at h
        split at h
        next hs =>
          obtain ⟨rfl, rfl⟩ := Prod.mk.inj (Option.some.inj h)
          exact .inr ⟨hs, rfl, text, rfl⟩
        next => exact .inl h

/-- An analysis changes neither texts nor settings. -/
theorem analysis_inputs : (w.analysis p).2.inputs = w.inputs := by
  obtain ⟨results, h, -, -⟩ := analysis_snd w p
  rw [h, inputs, inputs, ← ensureIndex_documents w, ← ensureIndex_settings w]

/-- A read of one place does not change what is read at another. -/
theorem analysis_frame (hpq : ¬p.same q) :
    ((w.analysis p).2.analysis q).1 = (w.analysis q).1 := by
  obtain ⟨results, h, hframe, -⟩ := analysis_snd w p
  have hindex : ((w.analysis p).2).ensureIndex = (w.analysis p).2 :=
    ensureIndex_of_not_stale _ (by rw [h]; exact ensureIndex_indexStale w)
  rw [analysis_fst, analysis_fst, hindex, h]
  simp only [text?, ensureIndex_documents, ensureIndex_settings, hframe q hpq]
  rfl

theorem validateEach_inputs (ps : List Path) : (w.validateEach ps).2.inputs = w.inputs := by
  induction ps generalizing w with
  | nil => rfl
  | cons p ps ih => exact (ih _).trans (analysis_inputs w p)

/-- The findings at different places are those of separate reads. -/
theorem validateEach_fst {ps : List Path} (hps : ps.Pairwise fun p q => ¬p.same q) :
    (w.validateEach ps).1 =
      ps.filterMap fun p => (w.analysis p).1.map fun a => (p, a.diagnostics) := by
  induction ps generalizing w with
  | nil => rfl
  | cons p ps ih =>
    obtain ⟨hp, hps⟩ := pairwise_cons.1 hps
    have hrest : (ps.filterMap fun q => ((w.analysis p).2.analysis q).1.map fun a =>
        (q, a.diagnostics)) = ps.filterMap fun q => (w.analysis q).1.map fun a =>
          (q, a.diagnostics) :=
      filterMap_congr fun q hq => by rw [analysis_frame w p q (hp q hq)]
    have hcons : (w.validateEach (p :: ps)).1 =
        (((w.analysis p).1.map (·.diagnostics)).map (p, ·)).toList ++
          ((w.analysis p).2.validateEach ps).1 := rfl
    rw [hcons, ih _ hps, hrest, filterMap_cons]
    cases (w.analysis p).1 <;> rfl

end Read

/-! ### What a step is made of -/

/-- The states that an operation can lead through: texts are stored and dropped, settings are put in
force, documents are read, and what was stored is dropped for a refresh. -/
inductive Moves (op : Operation) (w : Workspace) : Workspace → Prop
  | start : Moves op w w
  | setTexts {v : Workspace} {p : Path} (h : Moves op w v) (hp : p ∈ op.path?)
      (texts : DocumentTexts) (now : Nat) : Moves op w ((v.setTexts p texts).touched p now)
  | forget {v : Workspace} (h : Moves op w v) (p : Path) (now : Nat) :
    Moves op w ((v.forget p).touched p now)
  | setSettings {v : Workspace} (h : Moves op w v) (settings : Settings) (now : Nat) :
    Moves op w (v.setSettings settings now)
  | ensureIndex {v : Workspace} (h : Moves op w v) : Moves op w v.ensureIndex
  | analysis {v : Workspace} {p : Path} (h : Moves op w v)
      (hp : p ∈ op.path? ∨ p ∈ v.documents.paths) : Moves op w (v.analysis p).2
  | clear {v : Workspace} (h : Moves op w v) (refresh : Refresh) :
    Moves op w { v with results := [], refresh }
  | wait {v : Workspace} (h : Moves op w v) (refresh : Refresh) : Moves op w { v with refresh }

/-- Analysing documents is made of moves. -/
theorem Moves.validateEach {op : Operation} {w v : Workspace} (h : Moves op w v) {ps : List Path}
    (hps : ∀ p ∈ ps, p ∈ v.documents.paths) : Moves op w (v.validateEach ps).2 := by
  induction ps generalizing v with
  | nil => exact h
  | cons p ps ih =>
    have hdocuments : (v.analysis p).2.documents = v.documents :=
      congrArg Inputs.documents (analysis_inputs v p)
    exact ih (h.analysis (.inr (hps p (by simp)))) fun q hq =>
      hdocuments ▸ hps q (mem_cons_of_mem _ hq)

/-- Every operation is made of moves. -/
theorem moves_step (w : Workspace) (op : Operation) : Moves op w (w.step op).2 := by
  have h : Moves op w w := .start
  cases op with
  | add p text now =>
    change Moves _ w (w.addOnDisk p text now)
    unfold addOnDisk changeOnDisk
    split
    · split
      · exact h
      · exact h.setTexts rfl _ now
    · exact h.setTexts rfl _ now
  | remove p now =>
    change Moves _ w (w.removeOnDisk p now).2
    unfold removeOnDisk
    split
    · exact h
    · dsimp only
      split
      · exact h.setTexts rfl _ now
      · exact h.forget p now
  | change p text now =>
    change Moves _ w (w.changeOnDisk p text now).2
    unfold changeOnDisk
    split
    · exact h
    · exact h.setTexts rfl _ now
  | edit p text now => exact (h.setTexts rfl _ now).analysis (.inl rfl)
  | close p now =>
    change Moves _ w (w.closeInEditor p now)
    unfold closeInEditor
    split
    · exact h
    · dsimp only
      split
      · exact h.forget p now
      · exact h.setTexts rfl _ now
  | setSettings settings now => exact h.setSettings settings now
  | ensureIndex => exact h.ensureIndex
  | validateAll => exact h.validateEach fun _ hp => hp
  | refresh => exact (h.clear w.refresh).validateEach fun _ hp => hp
  | poll now =>
    change Moves _ w (w.poll now).2
    unfold poll
    dsimp only
    split
    · exact (h.clear _).validateEach fun _ hp => hp
    · exact h.wait _
  | analysis p | validate p | fixAll p | completionsAt p position | hoverAt p position =>
    exact h.analysis (.inl rfl)

/-! ### The invariant -/

/-- What is stored fits the texts, the settings and the generation. The paths are those that have
been named so far. -/
structure Coherent (paths : List Path) (w : Workspace) : Prop where
  sorted : w.documents.Sorted
  named : ∀ p ∈ w.documents.paths, p ∈ paths
  index_eq : w.indexStale = false → w.index = w.inputs.types
  generation_le : ∀ p g a, w.results.find? p = some (g, a) → g ≤ w.generation
  current : ∀ p a, w.results.find? p = some (w.generation, a) →
    ∃ q ∈ paths, q.same p = true ∧ a = .run q.text a.document.text w.index w.settings

section Invariant

variable {paths : List Path} {w : Workspace} {p : Path}

/-- A new workspace is coherent. -/
theorem coherent_ofSources (root : Path) (sources : List Source) (settings : Settings)
    (h : ∀ p ∈ sources.map (·.1), p ∈ paths) :
    Coherent paths (ofSources root sources settings) where
  sorted := sorted_ofList _
  named := by
    intro p hp
    refine h p ?_
    have hmem := mem_paths_ofList hp
    rw [map_map] at hmem
    exact hmem
  index_eq := by simp [ofSources, empty]
  generation_le := by simp [ofSources, empty]
  current := by simp [ofSources, empty]

/-- Making the index keeps a workspace coherent. -/
theorem Coherent.ensureIndex (h : Coherent paths w) : Coherent paths w.ensureIndex := by
  by_cases hs : w.indexStale
  · have heq : w.ensureIndex =
        { w with
          index := w.inputs.types
          indexStale := false
          generation := w.generation + 1 } := by
      rw [Workspace.ensureIndex, if_pos hs]
      rfl
    rw [heq]
    refine ⟨h.sorted, h.named, fun _ => rfl, fun p g a hr => ?_, fun p a hr => ?_⟩
    · exact Nat.le_succ_of_le (h.generation_le p g a hr)
    · -- all that is stored is older than the new index
      exact absurd (h.generation_le p _ a hr) (Nat.not_succ_le_self _)
  · rwa [ensureIndex_of_not_stale w (by simpa using hs)]

/-- The index is then the one of the present declarations. -/
theorem Coherent.ensureIndex_index (h : Coherent paths w) :
    w.ensureIndex.index = w.inputs.types := by
  rw [h.ensureIndex.index_eq (ensureIndex_indexStale w), ensureIndex_inputs]

/-- Analyses can be dropped. -/
theorem Coherent.restrict (h : Coherent paths w) {results : PathMap (Nat × Analysis)}
    (hsub : ∀ p r, results.find? p = some r → w.results.find? p = some r) :
    Coherent paths { w with results } where
  sorted := h.sorted
  named := h.named
  index_eq := h.index_eq
  generation_le := fun p g a hr => h.generation_le p g a (hsub p _ hr)
  current := fun p a hr => h.current p a (hsub p _ hr)

/-- An analysis keeps a workspace coherent. -/
theorem Coherent.analysis (h : Coherent paths w) (hp : p ∈ paths) :
    Coherent paths (w.analysis p).2 := by
  obtain ⟨results, heq, -, hnew⟩ := analysis_snd w p
  have hv := h.ensureIndex
  rw [heq]
  refine ⟨hv.sorted, hv.named, hv.index_eq, fun q g a hr => ?_, fun q a hr => ?_⟩
  · rcases hnew q g a hr with hold | ⟨-, rfl, -⟩
    · exact hv.generation_le q g a (by rwa [ensureIndex_results])
    · exact Nat.le_refl _
  · rcases hnew q _ a hr with hold | ⟨hs, -, text, rfl⟩
    · exact hv.current q a (by rwa [ensureIndex_results])
    · exact ⟨p, hp, hs, by rw [ensureIndex_settings]; rfl⟩

/-- What is read at a path is the analysis of its text under some spelling of the path. -/
theorem Coherent.analysis_eq_analyse (h : Coherent paths w) (hp : p ∈ paths) :
    ∃ q ∈ paths, q.same p = true ∧ (w.analysis p).1 = w.inputs.analyse q p := by
  rw [analysis_fst, h.ensureIndex_index, text?]
  simp only [Inputs.analyse, inputs_documents, inputs_settings]
  cases w.documents.find? p with
  | none => exact ⟨p, hp, Path.same_refl p, rfl⟩
  | some texts =>
    simp only [Option.map_some]
    cases hf : (w.results.find? p).filter (w.ensureIndex.isFresh texts.text) with
    | none => exact ⟨p, hp, Path.same_refl p, rfl⟩
    | some r =>
      obtain ⟨g, a⟩ := r
      obtain ⟨hr, hfresh⟩ := Option.filter_eq_some_iff.1 hf
      simp only [isFresh, Bool.and_eq_true, beq_iff_eq] at hfresh
      obtain ⟨rfl, htext⟩ := hfresh
      obtain ⟨q, hq, hs, ha⟩ := h.ensureIndex.current p a (by rwa [ensureIndex_results])
      refine ⟨q, hq, hs, ?_⟩
      rw [htext, h.ensureIndex_index, ensureIndex_settings] at ha
      exact congrArg some ha

/-- An analysis is current, for some spelling that was used. -/
theorem Coherent.exists_spelling (h : Coherent paths w) :
    ∃ spell : Path → Path, ∀ p ∈ paths, spell p ∈ paths ∧ (spell p).same p = true ∧
      (w.analysis p).1 = w.inputs.analyse (spell p) p := by
  have hex : ∀ p, ∃ q, p ∈ paths → q ∈ paths ∧ q.same p = true ∧
      (w.analysis p).1 = w.inputs.analyse q p := by
    intro p
    by_cases hp : p ∈ paths
    · obtain ⟨q, hq⟩ := h.analysis_eq_analyse hp
      exact ⟨q, fun _ => hq⟩
    · exact ⟨p, fun hp' => absurd hp' hp⟩
  choose spell hspell using hex
  exact ⟨spell, hspell⟩

theorem Coherent.wait (h : Coherent paths w) (refresh : Refresh) :
    Coherent paths { w with refresh } :=
  ⟨h.sorted, h.named, h.index_eq, h.generation_le, h.current⟩

/-- New settings keep a workspace coherent. -/
theorem Coherent.setSettings (h : Coherent paths w) (settings : Settings) (now : Nat) :
    Coherent paths (w.setSettings settings now) where
  sorted := h.sorted
  named := h.named
  index_eq := h.index_eq
  generation_le := fun p g a hr => Nat.le_succ_of_le (h.generation_le p g a hr)
  current := fun p a hr => absurd (h.generation_le p _ a hr) (Nat.not_succ_le_self _)

/-! ### Changes of texts -/

/-- Paths of one place declare the same name. -/
theorem declared?_congr {q : Path} (h : p.same q = true) :
    declared? p = declared? q := by
  have hname : p.fileName? = q.fileName? := by
    rw [Path.fileName?, Path.fileName?, Path.same_iff.1 h]
  have hrole : DocumentRole.ofPath p = DocumentRole.ofPath q := by
    simp only [DocumentRole.ofPath, Path.extension?, hname]
  simp only [declared?, hrole, Path.stem?, hname]

/-- A document that declares nothing has no part in the types. -/
theorem types_insert (m : PathMap DocumentTexts) (texts : DocumentTexts) (s : Settings)
    (hp : declared? p = none) :
    Inputs.types ⟨m.insert p texts, s⟩ = Inputs.types ⟨m, s⟩ := by
  unfold Inputs.types Source.typeIndex
  refine congrArg TypeIndex.build ?_
  induction m with
  | nil => simp [PathMap.insert, Source.declarations, hp]
  | cons e m ih =>
    rw [PathMap.insert]
    split
    next => simp [Source.declarations, hp]
    next heq =>
      have he : declared? e.1 = none := by
        rw [← declared?_congr (Path.compare_eq_iff.1 heq), hp]
      simp [Source.declarations, he]
    next =>
      simp only [Source.declarations, map_cons, filterMap_cons] at ih ⊢
      rw [ih]

/-- Only declarations have a part in the types. -/
theorem types_erase (m : PathMap DocumentTexts) (s : Settings)
    (hp : declared? p = none) :
    Inputs.types ⟨m.erase p, s⟩ = Inputs.types ⟨m, s⟩ := by
  unfold Inputs.types Source.typeIndex
  refine congrArg TypeIndex.build ?_
  induction m with
  | nil => rfl
  | cons e m ih =>
    rw [erase] at ih ⊢
    simp only [Source.declarations] at ih ⊢
    by_cases he : e.1.same p = true
    · have hd : declared? e.1 = none := by rw [declared?_congr he, hp]
      rw [filter_cons_of_neg (by simp [he]), ih]
      simp [hd]
    · rw [filter_cons_of_pos (by simp [he]), map_cons, filterMap_cons, ih,
        map_cons, filterMap_cons]

/-- New texts keep a workspace coherent. -/
theorem Coherent.setTexts (h : Coherent paths w) (hp : p ∈ paths) (texts : DocumentTexts)
    (now : Nat) : Coherent paths ((w.setTexts p texts).touched p now) where
  sorted := h.sorted.insert p texts
  named := by
    intro q hq
    rcases mem_paths_insert hq with rfl | hq
    · exact hp
    · exact h.named q hq
  index_eq := by
    intro hs
    obtain ⟨hs, hd⟩ := Bool.or_eq_false_iff.1 hs
    exact (h.index_eq hs).trans (types_insert _ texts _ (by simpa using hd)).symm
  generation_le := h.generation_le
  current := h.current

/-- Dropping a document keeps a workspace coherent. -/
theorem Coherent.forget (h : Coherent paths w) (p : Path) (now : Nat) :
    Coherent paths ((w.forget p).touched p now) := by
  have hsub : ∀ q r, (w.results.erase p).find? q = some r → w.results.find? q = some r := by
    intro q r hr
    rw [find?_erase] at hr
    split at hr
    · cases hr
    · exact hr
  refine ⟨h.sorted.erase p, fun q hq => h.named q (mem_paths_erase hq), fun hs => ?_,
    (h.restrict hsub).generation_le, (h.restrict hsub).current⟩
  obtain ⟨hs, hd⟩ := Bool.or_eq_false_iff.1 hs
  exact (h.index_eq hs).trans (types_erase _ _ (by simpa using hd)).symm

/-! ### Steps and runs -/

/-- **The invariant is kept** by every operation on a path that is counted among the named ones. -/
theorem Coherent.step (h : Coherent paths w) (op : Operation) (hop : ∀ p ∈ op.path?, p ∈ paths) :
    Coherent paths (w.step op).2 := by
  have hmoves := moves_step w op
  generalize (w.step op).2 = v at hmoves ⊢
  induction hmoves with
  | start => exact h
  | setTexts _ hp texts now ih => exact ih.setTexts (hop _ hp) texts now
  | forget _ p now ih => exact ih.forget p now
  | setSettings _ settings now ih => exact ih.setSettings settings now
  | ensureIndex _ ih => exact ih.ensureIndex
  | analysis _ hp ih => exact ih.analysis (hp.elim (hop _) (ih.named _))
  | clear _ refresh ih => exact (ih.wait refresh).restrict (by simp)
  | wait _ refresh ih => exact ih.wait refresh

/-- What an operation does to texts and settings. -/
theorem step_inputs (w : Workspace) (op : Operation) :
    (w.step op).2.inputs = op.inputs w.inputs := by
  cases op with
  | add p text now =>
    cases hf : w.documents.find? p <;>
      simp [step, addOnDisk, changeOnDisk, PathMap.contains, hf, Operation.inputs,
        Operation.documents, Operation.settings, inputs, setTexts, touched]
  | remove p now =>
    simp only [step, removeOnDisk, Operation.inputs, Operation.documents,
      inputs_documents]
    cases w.documents.find? p with
    | none => rfl
    | some texts => cases ho : texts.isOpen <;> simp only [ho] <;> rfl
  | change p text now =>
    simp only [step, changeOnDisk, Operation.inputs, Operation.documents,
      inputs_documents]
    cases w.documents.find? p <;> rfl
  | edit p text now => exact analysis_inputs _ p
  | close p now =>
    simp only [step, closeInEditor, Operation.inputs, Operation.documents,
      inputs_documents]
    cases w.documents.find? p with
    | none => rfl
    | some texts => cases hd : texts.disk <;> simp only [hd] <;> rfl
  | setSettings settings now => rfl
  | ensureIndex => exact ensureIndex_inputs w
  | validateAll => exact validateEach_inputs w _
  | refresh => exact validateEach_inputs _ _
  | poll now =>
    change (w.poll now).2.inputs = _
    unfold poll
    dsimp only
    split
    · exact validateEach_inputs _ _
    · rfl
  | analysis p | validate p | fixAll p | completionsAt p position | hoverAt p position =>
    exact analysis_inputs w p

/-- What a run does to texts and settings. -/
theorem run_inputs (w : Workspace) (ops : List Operation) :
    (w.run ops).inputs = ops.foldl Operation.inputs w.inputs := by
  induction ops generalizing w with
  | nil => rfl
  | cons op ops ih => exact (ih _).trans (by rw [step_inputs]; rfl)

/-- A workspace is coherent after any run. -/
theorem Coherent.run (h : Coherent paths w) (ops : List Operation)
    (hops : ∀ op ∈ ops, ∀ p ∈ op.path?, p ∈ paths) : Coherent paths (w.run ops) := by
  induction ops generalizing w with
  | nil => exact h
  | cons op ops ih =>
    exact ih (h.step op (hops op (by simp))) fun o ho => hops o (mem_cons_of_mem _ ho)

/-- All findings are those of separate reads. -/
theorem Coherent.validateAll_fst (h : Coherent paths w) :
    w.validateAll.1 =
      w.documents.paths.filterMap fun p => (w.analysis p).1.map fun a => (p, a.diagnostics) :=
  validateEach_fst w h.sorted.pairwise_not_same

/-- An answer depends only on what is read at the path that is named and at the documents. -/
theorem Operation.answer_congr {op : Operation} {i : Inputs} {timers : Refresh}
    {read read' : Path → Option Analysis} (hpath : ∀ p ∈ op.path?, read p = read' p)
    (hall : ∀ p ∈ (op.inputs i).documents.paths, read p = read' p) :
    op.answer i timers read = op.answer i timers read' := by
  have hpub : ((op.inputs i).documents.paths.filterMap fun p =>
      (read p).map fun a => (p, a.diagnostics)) = (op.inputs i).documents.paths.filterMap fun p =>
        (read' p).map fun a => (p, a.diagnostics) :=
    filterMap_congr fun p hp => by rw [hall p hp]
  cases op <;> simp_all [Operation.answer, Operation.path?]

theorem analysis_index (w : Workspace) (p : Path) :
    (w.analysis p).2.index = w.ensureIndex.index := by
  obtain ⟨results, h, -, -⟩ := analysis_snd w p
  rw [h]

/-- A document whose texts were just set has an analysis. -/
theorem exists_analysis_setTexts (w : Workspace) (p : Path) (texts : DocumentTexts) (now : Nat) :
    ∃ a, (((w.setTexts p texts).touched p now).analysis p).1 = some a := by
  have htext : ((w.setTexts p texts).touched p now).text? p = some texts.text := by
    simp [text?, touched, setTexts, find?_insert, Path.same_refl]
  rw [analysis_fst, htext]
  exact ⟨_, rfl⟩

/-- A poll that fires validates everything from scratch. -/
theorem poll_fst (w : Workspace) (now : Nat) :
    (w.poll now).1 = if (w.refresh.poll now).1 then
      some ({ w with results := [], refresh := (w.refresh.poll now).2 } : Workspace).validateAll.1
      else none := by
  unfold poll refreshAll
  dsimp only
  split <;> rfl

/-- What is read in a coherent workspace gives the answer from scratch. -/
theorem Coherent.exists_answer (h : Coherent paths w) {op : Operation}
    (hop : ∀ p ∈ op.path?, p ∈ paths) {i : Inputs} (hi : w.inputs = op.inputs i)
    (timers : Refresh) :
    ∃ spell : Path → Path, (∀ p ∈ paths, spell p ∈ paths ∧ (spell p).same p = true) ∧
      op.answer i timers (fun p => (w.analysis p).1) = op.answerFromScratch i timers spell := by
  obtain ⟨spell, hspell⟩ := h.exists_spelling
  refine ⟨spell, fun p hp => ⟨(hspell p hp).1, (hspell p hp).2.1⟩, ?_⟩
  rw [Operation.answerFromScratch, ← hi]
  refine Operation.answer_congr (fun p hp => (hspell p (hop p hp)).2.2) fun p hp => ?_
  rw [← hi] at hp
  exact (hspell p (h.named p hp)).2.2

/-- **The answer of a step** is the one from scratch, each document being analysed under one of the
spellings of its path that have been named. -/
theorem Coherent.step_fst (h : Coherent paths w) (op : Operation)
    (hop : ∀ p ∈ op.path?, p ∈ paths) :
    ∃ spell : Path → Path, (∀ p ∈ paths, spell p ∈ paths ∧ (spell p).same p = true) ∧
      (w.step op).1 = op.answerFromScratch w.inputs w.refresh spell := by
  -- it is enough to name the workspace in which the operation reads
  have key : ∀ v : Workspace, Coherent paths v → v.inputs = op.inputs w.inputs →
      (w.step op).1 = op.answer w.inputs w.refresh (fun p => (v.analysis p).1) →
      ∃ spell : Path → Path, (∀ p ∈ paths, spell p ∈ paths ∧ (spell p).same p = true) ∧
        (w.step op).1 = op.answerFromScratch w.inputs w.refresh spell := by
    intro v hv hi heq
    rw [heq]
    exact hv.exists_answer hop hi w.refresh
  have silent : (w.step op).1 = op.answer w.inputs w.refresh (fun _ => none) →
      (∀ read, op.answer w.inputs w.refresh read = op.answer w.inputs w.refresh fun _ => none) →
      ∃ spell : Path → Path, (∀ p ∈ paths, spell p ∈ paths ∧ (spell p).same p = true) ∧
        (w.step op).1 = op.answerFromScratch w.inputs w.refresh spell :=
    fun heq hread => ⟨id, fun p hp => ⟨hp, Path.same_refl p⟩, heq.trans (hread _).symm⟩
  cases op with
  | add p text now | close p now | setSettings settings now | ensureIndex =>
    exact silent rfl fun _ => rfl
  | remove p now =>
    refine silent ?_ fun _ => rfl
    change Answer.known (w.removeOnDisk p now).1 = .known (w.documents.find? p).isSome
    rw [removeOnDisk]
    cases w.documents.find? p <;> rfl
  | change p text now =>
    refine silent ?_ fun _ => rfl
    change Answer.known (w.changeOnDisk p text now).1 = .known (w.documents.find? p).isSome
    rw [changeOnDisk]
    cases w.documents.find? p <;> rfl
  | edit p text now =>
    refine key _ (h.setTexts (hop p rfl) _ now) rfl ?_
    -- the document is known by now, so something is read
    have hsome : ∀ v : Workspace, (∃ a, (v.analysis p).1 = some a) →
        some (((v.analysis p).1.map (·.diagnostics)).getD []) =
          (v.analysis p).1.map (·.diagnostics) := by
      rintro v ⟨a, ha⟩
      rw [ha]
      rfl
    exact congrArg Answer.findings (hsome _ (exists_analysis_setTexts w p _ now))
  | analysis p | validate p | fixAll p => exact key w h rfl rfl
  | validateAll =>
    refine key w h rfl ?_
    exact congrArg (fun found => Answer.published (some found)) h.validateAll_fst
  | refresh =>
    have hv : Coherent paths { w with results := [] } := h.restrict (by simp)
    refine key _ hv rfl ?_
    exact congrArg (fun found => Answer.published (some found)) hv.validateAll_fst
  | poll now =>
    have hv : Coherent paths { w with results := [], refresh := (w.refresh.poll now).2 } :=
      ⟨h.sorted, h.named, h.index_eq, by simp, by simp⟩
    refine key _ hv rfl ?_
    have hpoll := w.poll_fst now
    rw [hv.validateAll_fst] at hpoll
    exact congrArg Answer.published hpoll
  | completionsAt p position =>
    refine key w h rfl ?_
    change Answer.candidates
      (((w.analysis p).1.map (·.completionsAt (w.analysis p).2.index position)).getD []) = _
    rw [analysis_index, h.ensureIndex_index]
    rfl
  | hoverAt p position =>
    refine key w h rfl ?_
    change Answer.hover ((w.analysis p).1.bind (·.hoverAt (w.analysis p).2.index position)) = _
    rw [analysis_index, h.ensureIndex_index]
    rfl

end Invariant

/-- An analysis depends on a name only through its last part. -/
theorem analyse_congr_base (i : Inputs) {name name' : Path} (p : Path)
    (h : base name.text = base name'.text) :
    i.analyse name p = i.analyse name' p := by
  simp only [Inputs.analyse, Analysis.run, h]

/-- **Answers are current.** Take any run of operations on a workspace with some documents, and one
operation more. Its answer is computed from the present texts and settings alone, the texts standing
in the order of their places, and nothing is found at a path without a document. Each document is
analysed under one of the spellings of its path that have been named, and if all spellings of a
place have the same last part, under the path itself. -/
theorem reads_are_current (root : Path) (sources : List Source) (settings : Settings)
    (ops : List Operation) (op : Operation) :
    let start := ofSources root sources settings
    let w := start.run ops
    let present := ops.foldl Operation.inputs start.inputs
    let named := sources.map (·.1) ++ (ops ++ [op]).filterMap Operation.path?
    present.documents.Sorted ∧
    (∃ spell : Path → Path, (∀ p ∈ named, spell p ∈ named ∧ (spell p).same p = true) ∧
      (w.step op).1 = op.answerFromScratch present w.refresh spell) ∧
    ((∀ p ∈ named, ∀ q ∈ named, p.same q = true →
        base p.text = base q.text) →
      (w.step op).1 = op.answerFromScratch present w.refresh id) := by
  intro start w present named
  have hop : ∀ p ∈ op.path?, p ∈ named := by
    intro p hp
    exact mem_append_right _ (mem_filterMap.2 ⟨op, by simp, hp⟩)
  have hops : ∀ o ∈ ops, ∀ p ∈ o.path?, p ∈ named := by
    intro o ho p hp
    exact mem_append_right _ (mem_filterMap.2 ⟨o, by simp [ho], hp⟩)
  have hstart : Coherent named start :=
    coherent_ofSources root sources settings fun p hp => mem_append_left _ hp
  have hw : Coherent named w := hstart.run ops hops
  have hpresent : w.inputs = present := run_inputs start ops
  obtain ⟨spell, hspell, hanswer⟩ := hw.step_fst op hop
  rw [hpresent] at hanswer
  refine ⟨?_, ⟨spell, hspell, hanswer⟩, fun hbase => ?_⟩
  · rw [← hpresent]
    exact hw.sorted
  · have hread : ∀ p ∈ named,
        (op.inputs present).analyse (spell p) p = (op.inputs present).analyse p p := by
      intro p hp
      obtain ⟨hmem, hsame⟩ := hspell p hp
      exact analyse_congr_base _ p (hbase _ hmem p hp hsame)
    rw [hanswer]
    refine Operation.answer_congr (fun p hp => hread p (hop p hp)) fun p hp => hread p ?_
    rw [← hpresent, ← step_inputs] at hp
    exact (hw.step op hop).named p hp

/-- The declaration of a document's type is edited after the document was read, and the document is
read again under another spelling. -/
theorem reads_are_current_after_declaration :
    let ops := [.validate ⟨"/w/A.thrd"⟩, .edit ⟨"/w/A.thrdtype"⟩ "#Number" 7]
    let start := ofSources ⟨"/w"⟩ [(⟨"/w/A.thrd"⟩, "1")] {}
    ((start.run ops).step (.validate ⟨"/w//A.thrd"⟩)).1 =
      (Operation.validate ⟨"/w//A.thrd"⟩).answerFromScratch
        (ops.foldl Operation.inputs start.inputs)
        (start.run ops).refresh id :=
  (reads_are_current _ _ _ _ _).2.2 (by decide +kernel)

/-- A run whose last answer is not the one for the path itself: a document is read under its name,
and then with a slash behind it. The place is the same, so the second read finds the first analysis,
with the finding that no type `A` is declared. Under the second name the document would have no
type, and nothing would be found. -/
theorem trailing_slash_reads_another_name :
    let w := (ofSources ⟨"/w"⟩ [(⟨"/w/A.thrd"⟩, "1")] {}).run [.validate ⟨"/w/A.thrd"⟩]
    (w.step (.validate ⟨"/w/A.thrd/"⟩)).1 ≠
      (Operation.validate ⟨"/w/A.thrd/"⟩).answerFromScratch w.inputs w.refresh id := by
  intro w heq
  have hcount := congrArg (fun | Answer.findings found => found.map List.length | _ => none) heq
  revert hcount
  decide +kernel

end Workspace

end TypedNotation
