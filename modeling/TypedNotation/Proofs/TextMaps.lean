import Mathlib.Logic.Function.Basic
import TypedNotation.Proofs.EditorPrecedence
import TypedNotation.Proofs.RefreshRuns

/-!
# Documents as two maps

A workspace keeps one record per document, with the text on disk and the text in the editor. It is
made by whoever names the document first, and dropped when its last text is gone. To the outside
this is the same as two maps that know nothing of each other, one for the disk and one for the
editor (`TextMaps`), by the components of paths.

The relation between the two is `Workspace.Refines`: the record of a place is the pair of the texts
there, and there is none if both are missing; and an analysis is stored only for a document that is
known. Each operation keeps the relation, so it holds after every run
(`Workspace.documents_are_two_maps`).
-/

namespace TypedNotation

open PathMap
open Workspace (Operation)

/-- The texts of documents on disk and in the editor, by place. -/
structure TextMaps where
  disk : List Component → Option String
  editor : List Component → Option String

namespace TextMaps

/-- Whether a place has a text. -/
def knows (m : TextMaps) (place : List Component) : Bool :=
  (m.disk place).isSome || (m.editor place).isSome

/-- The text that counts. -/
def text? (m : TextMaps) (place : List Component) : Option String :=
  (m.editor place).or (m.disk place)

/-- Puts a text on disk, or takes it away. -/
def setDisk (m : TextMaps) (p : Path) (text : Option String) : TextMaps :=
  { m with disk := Function.update m.disk p.components text }

/-- Puts a text in the editor, or takes it away. -/
def setEditor (m : TextMaps) (p : Path) (text : Option String) : TextMaps :=
  { m with editor := Function.update m.editor p.components text }

/-- What happens on disk and in the editor. -/
def step (m : TextMaps) : Operation → TextMaps
  | .add p text _ => m.setDisk p (some text)
  | .change p text _ => if m.knows p.components then m.setDisk p (some text) else m
  | .remove p _ => m.setDisk p none
  | .edit p text _ => m.setEditor p (some text)
  | .close p _ => m.setEditor p none
  | _ => m

/-- The maps after some operations. -/
def run (m : TextMaps) (ops : List Operation) : TextMaps :=
  ops.foldl step m

/-- Some texts on disk; of two for one place the last one counts. -/
def ofSources (sources : List Source) : TextMaps :=
  sources.foldl (fun m s => m.setDisk s.1 (some s.2)) ⟨fun _ => none, fun _ => none⟩

/-- The two texts of a known place. -/
def texts? (m : TextMaps) (place : List Component) : Option DocumentTexts :=
  if m.knows place then some ⟨m.disk place, m.editor place⟩ else none

section

variable (m : TextMaps) {p q : Path} (text : Option String) (place : List Component)

theorem isSome_texts? : (m.texts? place).isSome = m.knows place := by
  cases h : m.knows place <;> simp [texts?, h]

/-- The text of a document is the editor's, or else that on disk. -/
theorem map_text_texts? : (m.texts? place).map DocumentTexts.text = m.text? place := by
  unfold texts? knows text? DocumentTexts.text
  cases m.disk place <;> cases m.editor place <;> rfl

theorem any_isOpen_texts? : (m.texts? place).any DocumentTexts.isOpen =
    (m.editor place).isSome := by
  unfold texts? knows DocumentTexts.isOpen
  cases m.disk place <;> cases m.editor place <;> rfl

theorem texts?_setDisk_of_ne (h : q.components ≠ p.components) :
    (m.setDisk q text).texts? p.components = m.texts? p.components := by
  simp [texts?, knows, setDisk, Function.update_of_ne h.symm]

theorem texts?_setEditor_of_ne (h : q.components ≠ p.components) :
    (m.setEditor q text).texts? p.components = m.texts? p.components := by
  simp [texts?, knows, setEditor, Function.update_of_ne h.symm]

end

/-- An operation leaves all places but its own as they are. -/
theorem texts?_step_of_not_same {op : Operation} {p : Path} (h : op.path?.any (·.same p) = false)
    (m : TextMaps) : (m.step op).texts? p.components = m.texts? p.components := by
  have hne : ∀ q : Path, q.same p = false → q.components ≠ p.components := by
    intro q hq heq
    rw [Path.same_iff.2 heq] at hq
    cases hq
  cases op with
  | add q text now | remove q now => exact m.texts?_setDisk_of_ne _ (hne q h)
  | change q text now =>
    rw [step]
    split
    · exact m.texts?_setDisk_of_ne _ (hne q h)
    · rfl
  | edit q text now | close q now => exact m.texts?_setEditor_of_ne _ (hne q h)
  | _ => rfl

/-- At its own place an operation does to the two texts what it does to a record of them. -/
theorem texts?_step_of_same {op : Operation} {p : Path} (h : op.path?.any (·.same p) = true)
    (m : TextMaps) : (m.step op).texts? p.components = op.atPlace (m.texts? p.components) := by
  have heq : ∀ q : Path, q.same p = true → q.components = p.components := fun q => Path.same_iff.1
  -- four cases: each of the two texts is there or not
  cases op with
  | add q _ _ | change q _ _ | remove q _ =>
    cases hd : m.disk p.components <;> cases he : m.editor p.components <;>
      simp [step, setDisk, texts?, knows, Operation.atPlace, DocumentTexts.isOpen, heq q h, hd, he]
  | edit q _ _ | close q _ =>
    cases hd : m.disk p.components <;> cases he : m.editor p.components <;>
      simp [step, setEditor, texts?, knows, Operation.atPlace, heq q h, hd, he]
  | _ => rfl

end TextMaps

/-- A place is found if it is among the paths. -/
theorem PathMap.isSome_find?_iff {α : Type} {m : PathMap α} {p : Path} :
    (m.find? p).isSome = true ↔ ∃ q ∈ m.paths, q.same p = true := by
  simp [find?, paths, List.find?_isSome]

namespace Workspace

variable {w : Workspace} {p : Path}

/-! ### Stored analyses -/

/-- Whether an analysis is stored only for documents that are known. -/
def StoresKnown (w : Workspace) : Prop :=
  ∀ p, (w.results.find? p).isSome = true → (w.documents.find? p).isSome = true

/-- An analysis is stored for a known document only. -/
theorem StoresKnown.analysis (h : w.StoresKnown) (p : Path) : (w.analysis p).2.StoresKnown := by
  have hv : w.ensureIndex.StoresKnown := by simpa [StoresKnown] using h
  unfold Workspace.analysis
  generalize w.ensureIndex = v at hv ⊢
  cases ht : v.text? p with
  | none =>
    simp only [ht]
    exact hv
  | some text =>
    have hknown : (v.documents.find? p).isSome = true := by
      rw [← Option.isSome_map (f := DocumentTexts.text)]
      exact Option.isSome_iff_exists.2 ⟨text, ht⟩
    cases hf : (v.results.find? p).filter (v.isFresh text) with
    | some r =>
      simp only [ht, hf]
      exact hv
    | none =>
      simp only [ht, hf]
      intro q hq
      by_cases hs : p.same q = true
      · rwa [← find?_congr v.documents hs]
      · refine hv q ?_
        simpa [find?_insert, hs] using hq

theorem StoresKnown.setTexts (h : w.StoresKnown) (p : Path) (texts : DocumentTexts) (now : Nat) :
    ((w.setTexts p texts).touched p now).StoresKnown := by
  intro q hq
  change ((w.documents.insert p texts).find? q).isSome = true
  rw [find?_insert]
  split
  · rfl
  · exact h q hq

/-- A document is forgotten together with its analysis. -/
theorem StoresKnown.forget (h : w.StoresKnown) (p : Path) (now : Nat) :
    ((w.forget p).touched p now).StoresKnown := by
  intro q hq
  change ((w.results.erase p).find? q).isSome = true at hq
  change ((w.documents.erase p).find? q).isSome = true
  rw [find?_erase] at hq ⊢
  split at hq
  · cases hq
  · next hs =>
    rw [if_neg hs]
    exact h q hq

/-- Every operation keeps this. -/
theorem StoresKnown.step (h : w.StoresKnown) (op : Operation) : (w.step op).2.StoresKnown := by
  have hmoves := moves_step w op
  generalize (w.step op).2 = v at hmoves ⊢
  induction hmoves with
  | start => exact h
  | setTexts _ _ texts now ih => exact ih.setTexts _ texts now
  | forget _ p now ih => exact ih.forget p now
  | ensureIndex _ ih => simpa [StoresKnown] using ih
  | analysis _ _ ih => exact ih.analysis _
  | clear => simp [StoresKnown]
  | setSettings _ _ _ ih | wait _ _ ih => exact ih

/-! ### The relation -/

/-- The state of a workspace is the one given by two maps. -/
structure Refines (w : Workspace) (m : TextMaps) : Prop where
  sorted : w.documents.Sorted
  texts : ∀ p, w.documents.find? p = m.texts? p.components
  stored : w.StoresKnown

section Refinement

variable {m : TextMaps}

/-- The two maps know the same documents. -/
theorem Refines.isSome_find? (h : w.Refines m) (p : Path) :
    (w.documents.find? p).isSome = m.knows p.components := by
  rw [h.texts, m.isSome_texts?]

/-- Every operation keeps the documents sorted. -/
theorem sorted_step (h : w.documents.Sorted) (op : Operation) : (w.step op).2.documents.Sorted := by
  have hdocuments : (w.step op).2.documents = op.documents w.documents :=
    congrArg Inputs.documents (step_inputs w op)
  rw [hdocuments]
  cases op with
  | add p text now => exact h.insert p _
  | remove p now =>
    rw [Operation.documents]
    split
    · split
      · exact h.insert p _
      · exact h.erase p
    · exact h
  | change p text now =>
    rw [Operation.documents]
    split
    · exact h.insert p _
    · exact h
  | edit p text now => exact h.insert p _
  | close p now =>
    rw [Operation.documents]
    split
    · split
      · exact h.erase p
      · exact h.insert p _
    · exact h
  | _ => exact h

/-- **One step.** Every operation keeps the relation. -/
theorem Refines.step (h : w.Refines m) (op : Operation) : (w.step op).2.Refines (m.step op) where
  sorted := sorted_step h.sorted op
  texts := by
    intro p
    have hdocuments : (w.step op).2.documents = op.documents w.documents :=
      congrArg Inputs.documents (step_inputs w op)
    rw [hdocuments]
    cases hpath : op.path?.any (·.same p) with
    | false =>
      rw [Operation.find?_documents_of_not_same hpath, m.texts?_step_of_not_same hpath, h.texts]
    | true =>
      rw [Operation.find?_documents_of_same hpath, m.texts?_step_of_same hpath, h.texts]
  stored := h.stored.step op

/-- **A run.** -/
theorem Refines.run (h : w.Refines m) (ops : List Operation) : (w.run ops).Refines (m.run ops) := by
  induction ops generalizing w m with
  | nil => exact h
  | cons op ops ih => exact ih (h.step op)

end Refinement

/-- A workspace begins with what was found on disk. -/
theorem refines_ofSources (root : Path) (sources : List Source) (settings : Settings) :
    (ofSources root sources settings).Refines (.ofSources sources) where
  sorted := sorted_ofList _
  texts := by
    -- both are folds over the sources, and a source is put in its place in both
    suffices hfold : ∀ (docs : PathMap DocumentTexts) (m : TextMaps),
        (∀ p, docs.find? p = m.texts? p.components ∧ m.editor p.components = none) → ∀ p,
        ((sources.map fun s => (s.1, ({ disk := some s.2 } : DocumentTexts))).foldl
            (fun m e => m.insert e.1 e.2) docs).find? p =
          (sources.foldl (fun m s => m.setDisk s.1 (some s.2)) m).texts? p.components from
      hfold [] _ fun p => ⟨rfl, rfl⟩
    induction sources with
    | nil => exact fun docs m h p => (h p).1
    | cons s rest ih =>
      intro docs m h
      refine ih _ _ fun p => ⟨?_, (h p).2⟩
      rw [find?_insert]
      by_cases hs : s.1.same p = true
      · have heditor := (h p).2
        simp [hs, TextMaps.texts?, TextMaps.knows, TextMaps.setDisk, Path.same_iff.1 hs, heditor]
      · have hne : s.1.components ≠ p.components := fun heq => hs (Path.same_iff.2 heq)
        rw [if_neg hs, (h p).1, m.texts?_setDisk_of_ne _ hne]
  stored := by simp [StoresKnown, ofSources, empty]

/-! ### Pending refreshes -/

/-- Whether a refresh is pending: from some time on, a poll refreshes the workspace. -/
def AwaitsRefresh (w : Workspace) : Prop :=
  ∃ deadline, ∀ now, deadline ≤ now → (w.poll now).1.isSome = true

/-- A poll publishes exactly if the timers fire. -/
theorem isSome_poll (w : Workspace) (now : Nat) :
    (w.poll now).1.isSome = (w.refresh.poll now).1 := by
  cases h : (w.refresh.poll now).1 <;> simp [Workspace.poll, h]

/-- A request leaves the short timer running, or the long one with a change remembered. -/
theorem awaitsRefresh_of_schedule {r : Refresh} {now : Nat} (h : w.refresh = r.schedule now) :
    w.AwaitsRefresh := by
  have hdue : ∃ deadline, (r.schedule now).short = some deadline ∨
      (r.schedule now).long = some deadline ∧ (r.schedule now).again = true := by
    unfold Refresh.schedule
    split
    next hs => exact ⟨_, .inl hs⟩
    next hl => exact ⟨_, .inr ⟨hl, rfl⟩⟩
    next => exact ⟨_, .inl rfl⟩
  obtain ⟨deadline, hdeadline⟩ := hdue
  refine ⟨deadline, fun later hle => ?_⟩
  rw [isSome_poll, h, Refresh.poll_eq]
  rcases hdeadline with hs | ⟨hl, hagain⟩
  · simp [Refresh.isDue, hs, hle]
  · simp [Refresh.isDue, hl, hagain, hle]

theorem analysis_refresh (w : Workspace) (p : Path) : (w.analysis p).2.refresh = w.refresh := by
  obtain ⟨results, h, -, -⟩ := analysis_snd w p
  rw [h]
  change w.ensureIndex.refresh = w.refresh
  unfold Workspace.ensureIndex
  split <;> rfl

section Events

variable (w) (p) (text : String) (now : Nat)

theorem addOnDisk_refresh : (w.addOnDisk p text now).refresh = w.refresh.schedule now := by
  unfold addOnDisk changeOnDisk PathMap.contains
  cases hf : w.documents.find? p <;> rfl

theorem editInEditor_refresh : (w.editInEditor p text now).2.refresh = w.refresh.schedule now :=
  analysis_refresh _ p

variable {w p} (h : (w.documents.find? p).isSome = true)

include h

theorem changeOnDisk_refresh : (w.changeOnDisk p text now).2.refresh = w.refresh.schedule now := by
  obtain ⟨texts, hf⟩ := Option.isSome_iff_exists.1 h
  rw [changeOnDisk, hf]
  rfl

theorem removeOnDisk_refresh : (w.removeOnDisk p now).2.refresh = w.refresh.schedule now := by
  obtain ⟨texts, hf⟩ := Option.isSome_iff_exists.1 h
  simp only [removeOnDisk, hf]
  split <;> rfl

theorem closeInEditor_refresh : (w.closeInEditor p now).refresh = w.refresh.schedule now := by
  obtain ⟨texts, hf⟩ := Option.isSome_iff_exists.1 h
  simp only [closeInEditor, hf]
  split <;> rfl

end Events

/-- **Documents are two maps.** After any run of operations on a workspace with some documents, its
state is the one that two independent maps give, one of the texts on disk and one of those in the
editor. The documents are the places with a text in one of the maps, each listed once; the text of a
document is the one in the editor, or else the one on disk; and it is open if the editor has a text.
No analysis is stored for a place without a text.

Whatever happens next is told by the maps as well. A change or a removal on disk answers whether the
place has a text, and a change where there is none does nothing at all. Each thing that happens to a
document that is known, and each addition and edit in any case, leaves a refresh pending. -/
theorem documents_are_two_maps (root : Path) (sources : List Source) (settings : Settings)
    (ops : List Operation) :
    let w := (ofSources root sources settings).run ops
    let m := (TextMaps.ofSources sources).run ops
    (w.documents.paths.Pairwise fun p q => ¬p.same q) ∧
    (∀ p, (∃ q ∈ w.documents.paths, q.same p = true) ↔ m.knows p.components = true) ∧
    (∀ p, w.text? p = m.text? p.components) ∧
    (∀ p, w.isOpen p = (m.editor p.components).isSome) ∧
    (∀ p, m.knows p.components = false → w.results.find? p = none) ∧
    ∀ p text now,
      (w.changeOnDisk p text now).1 = m.knows p.components ∧
      (m.knows p.components = false → (w.changeOnDisk p text now).2 = w) ∧
      (w.removeOnDisk p now).1 = m.knows p.components ∧
      (w.addOnDisk p text now).AwaitsRefresh ∧
      (w.editInEditor p text now).2.AwaitsRefresh ∧
      (m.knows p.components = true →
        (w.changeOnDisk p text now).2.AwaitsRefresh ∧ (w.removeOnDisk p now).2.AwaitsRefresh ∧
          (w.closeInEditor p now).AwaitsRefresh) := by
  intro w m
  have h : w.Refines m := (refines_ofSources root sources settings).run ops
  refine ⟨h.sorted.pairwise_not_same, fun p => ?_, fun p => ?_, fun p => ?_, fun p hp => ?_,
    fun p text now => ⟨?_, fun hp => ?_, ?_, ?_, ?_, fun hp => ?_⟩⟩
  · rw [← isSome_find?_iff, h.isSome_find?]
  · rw [text?, h.texts, m.map_text_texts?]
  · rw [isOpen, h.texts, m.any_isOpen_texts?]
  · rw [← h.isSome_find?] at hp
    cases hr : w.results.find? p with
    | none => rfl
    | some r => rw [h.stored p (by simp [hr])] at hp; cases hp
  · rw [← h.isSome_find?, changeOnDisk]
    cases w.documents.find? p <;> rfl
  · have hnone : w.documents.find? p = none := by
      rw [← Option.isNone_iff_eq_none, ← Option.not_isSome, h.isSome_find?, hp]
      rfl
    rw [changeOnDisk, hnone]
  · rw [← h.isSome_find?, removeOnDisk]
    cases w.documents.find? p <;> rfl
  · exact awaitsRefresh_of_schedule (addOnDisk_refresh w p text now)
  · exact awaitsRefresh_of_schedule (editInEditor_refresh w p text now)
  · rw [← h.isSome_find?] at hp
    exact ⟨awaitsRefresh_of_schedule (changeOnDisk_refresh text now hp),
      awaitsRefresh_of_schedule (removeOnDisk_refresh now hp),
      awaitsRefresh_of_schedule (closeInEditor_refresh now hp)⟩

/-- A document that was never on disk is edited, reported as removed and closed, while another one
changes on disk under a second spelling of its path. -/
theorem documents_are_two_maps_of_unsaved :
    let p : Path := ⟨"/w/a.thrd"⟩
    let q : Path := ⟨"/w//b.thrd"⟩
    let w := (ofSources ⟨"/w"⟩ [(⟨"/w/b.thrd"⟩, "0")] {}).run
      [.edit p "1" 0, .remove p 1, .change q "2" 2, .close p 3]
    w.text? p = none ∧ w.results.find? p = none ∧ w.text? q = some "2" ∧ w.isOpen q = false ∧
      (w.changeOnDisk p "3" 4).1 = false ∧ (w.removeOnDisk q 4).2.AwaitsRefresh := by
  intro p q w
  obtain ⟨-, -, htext, hopen, hstored, hnext⟩ :=
    documents_are_two_maps ⟨"/w"⟩ [(⟨"/w/b.thrd"⟩, "0")] {}
    [.edit p "1" 0, .remove p 1, .change q "2" 2, .close p 3]
  obtain ⟨hchange, -⟩ := hnext p "3" 4
  obtain ⟨-, -, -, -, -, hpending⟩ := hnext q "" 4
  exact ⟨(htext p).trans (by decide +kernel), hstored p (by decide +kernel),
    (htext q).trans (by decide +kernel), (hopen q).trans (by decide +kernel),
    hchange.trans (by decide +kernel), (hpending (by decide +kernel)).2.1⟩

end Workspace

end TypedNotation
