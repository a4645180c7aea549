import TypedNotation.Proofs.WorkspaceRuns

/-!
# The editor's text

A document that is open in the editor has the text that the editor sent last. Inside one workspace
this is a law of its own (`Workspace.editorText?_step`): only the editor touches the text of the
editor, and what happens on disk does not. Among several workspaces the text is kept by the one that
owned the path when it was sent, so the law holds as long as that workspace is registered and owns
the path (`Workspaces.editor_text_wins`). It may be gone: another workspace registered for the same
root takes its place, and one registered for a root further inside takes the path over. Neither
knows of texts that were sent before (`Workspaces.new_root_forgets_editor_text`).
-/

namespace TypedNotation

open PathMap Workspace

theorem PathMap.find?_congr {α : Type} (m : PathMap α) {p q : Path} (h : p.same q = true) :
    m.find? p = m.find? q := by
  have hsame : ∀ q' : Path, q'.same p = q'.same q := fun q' => by
    rw [Path.same, Path.same, Path.same_iff.1 h]
  simp only [find?, hsame]

namespace Workspace

variable {w : Workspace} {p q : Path}

/-- The text of a document in the editor. -/
def editorText? (w : Workspace) (p : Path) : Option String :=
  (w.documents.find? p).bind (·.editor)

/-- An open document has the text of the editor. -/
theorem text?_of_editorText? {text : String} (h : w.editorText? p = some text) :
    w.text? p = some text := by
  obtain ⟨texts, hfind, heditor⟩ := Option.bind_eq_some_iff.1 h
  simp [text?, hfind, DocumentTexts.text, heditor]

namespace Operation

/-- What an operation makes of the texts at the place that it names. -/
def atPlace (old : Option DocumentTexts) : Operation → Option DocumentTexts
  | add _ text _ => some { old.getD {} with disk := some text }
  | remove _ _ =>
    old.bind fun texts => if texts.isOpen then some { texts with disk := none } else none
  | change _ text _ => old.map ({ · with disk := some text })
  | edit _ text _ => some { old.getD {} with editor := some text }
  | close _ _ =>
    old.bind fun texts => if texts.disk.isNone then none else some { texts with editor := none }
  | _ => old

/-- An operation changes the texts at no other place than the one that it names. -/
theorem find?_documents_of_not_same {op : Operation} (h : op.path?.any (·.same p) = false)
    (m : PathMap DocumentTexts) : (op.documents m).find? p = m.find? p := by
  have hinsert : ∀ q texts, q.same p = false → (m.insert q texts).find? p = m.find? p :=
    fun q texts hq => by simp [find?_insert, hq]
  have herase : ∀ q, q.same p = false → (m.erase q).find? p = m.find? p :=
    fun q hq => by simp [find?_erase, hq]
  cases op with
  | add q text now => exact hinsert q _ h
  | remove q now =>
    rw [documents]
    split
    · split
      · exact hinsert q _ h
      · exact herase q h
    · rfl
  | change q text now =>
    rw [documents]
    split
    · exact hinsert q _ h
    · rfl
  | edit q text now => exact hinsert q _ h
  | close q now =>
    rw [documents]
    split
    · split
      · exact herase q h
      · exact hinsert q _ h
    · rfl
  | _ => rfl

/-- What an operation does to the texts at the place that it names. -/
theorem find?_documents_of_same {op : Operation} (h : op.path?.any (·.same p) = true)
    (m : PathMap DocumentTexts) : (op.documents m).find? p = op.atPlace (m.find? p) := by
  have hinsert : ∀ q texts, q.same p = true → (m.insert q texts).find? p = some texts :=
    fun q texts hq => by simp [find?_insert, hq]
  have herase : ∀ q, q.same p = true → (m.erase q).find? p = none :=
    fun q hq => by simp [find?_erase, hq]
  cases op with
  | add q text now | edit q text now =>
    rw [documents, hinsert q _ h, atPlace, find?_congr m h]
  | remove q now =>
    rw [documents, find?_congr m h]
    cases hf : m.find? p with
    | none => simp [atPlace, hf]
    | some texts => cases ho : texts.isOpen <;> simp [atPlace, ho, hinsert q _ h, herase q h]
  | change q text now =>
    rw [documents, find?_congr m h]
    cases hf : m.find? p with
    | none => simp [atPlace, hf]
    | some texts => simp [atPlace, hinsert q _ h]
  | close q now =>
    rw [documents, find?_congr m h]
    cases hf : m.find? p with
    | none => simp [atPlace, hf]
    | some texts => cases hd : texts.disk <;> simp [atPlace, hd, hinsert q _ h, herase q h]
  | _ => rfl

/-- Whether the editor opens, edits or closes a document. -/
def isByEditor (p : Path) : Operation → Bool
  | edit q _ _ | close q _ => q.same p
  | _ => false

/-- What happens on disk leaves the text in the editor as it is. -/
theorem editor_atPlace {op : Operation} (hpath : op.path?.any (·.same p) = true)
    (h : op.isByEditor p = false) (old : Option DocumentTexts) :
    (op.atPlace old).bind (·.editor) = old.bind (·.editor) := by
  cases op with
  | edit q text now | close q now => simp_all [path?, isByEditor]
  | remove q now =>
    -- a document that is open is kept, and one that is not has no text to lose
    rcases old with _ | ⟨disk, _ | editor⟩ <;> rfl
  | add q text now => cases old <;> rfl
  | change q text now => cases old <;> rfl
  | _ => rfl

end Operation

/-- **The text in the editor** is changed by the editor alone. -/
theorem editorText?_step {op : Operation} (h : op.isByEditor p = false) (w : Workspace) :
    (w.step op).2.editorText? p = w.editorText? p := by
  have hdocuments : (w.step op).2.documents = op.documents w.documents :=
    congrArg Inputs.documents (step_inputs w op)
  rw [editorText?, hdocuments]
  cases hpath : op.path?.any (·.same p) with
  | false => rw [Operation.find?_documents_of_not_same hpath, editorText?]
  | true =>
    rw [Operation.find?_documents_of_same hpath, Operation.editor_atPlace hpath h, editorText?]

theorem editorText?_edit (w : Workspace) (hpq : q.same p = true) (text : String) (now : Nat) :
    (w.step (.edit q text now)).2.editorText? p = some text := by
  have hdocuments : (w.step (.edit q text now)).2.documents =
      (Operation.edit q text now).documents w.documents :=
    congrArg Inputs.documents (step_inputs w _)
  have hpath : (Operation.edit q text now).path?.any (·.same p) = true := hpq
  rw [editorText?, hdocuments, Operation.find?_documents_of_same hpath]
  rfl

theorem editorText?_run {ops : List Operation} (h : ∀ op ∈ ops, op.isByEditor p = false)
    (w : Workspace) : (w.run ops).editorText? p = w.editorText? p := by
  induction ops generalizing w with
  | nil => rfl
  | cons op ops ih =>
    have hrest := ih (fun o ho => h o (List.mem_cons_of_mem _ ho)) (w.step op).2
    exact hrest.trans (editorText?_step (h op (by simp)) w)

end Workspace

namespace Workspaces

variable {ws : Workspaces} {w : Workspace} {p q : Path}

/-- Whether the editor opens, edits or closes a document. -/
def Event.isByEditor (p : Path) (e : Event) : Bool :=
  e.operation?.any (·.isByEditor p)

/-- A workspace that is not replaced keeps the text of a document in the editor as long as the
editor does nothing with it. -/
theorem Distinct.exists_editorText? (h : Distinct ws) (hw : w ∈ ws) {events : List Event}
    (hroot : ∀ e ∈ events, e.replaces w.root = false)
    (heditor : ∀ e ∈ events, e.isByEditor p = false) :
    ∃ v ∈ events.foldl Workspaces.step ws, v.root = w.root ∧ v.editorText? p = w.editorText? p := by
  induction events generalizing ws w with
  | nil => exact ⟨w, hw, rfl, rfl⟩
  | cons e events ih =>
    obtain ⟨ops, hmem, hops⟩ := h.exists_mem_step hw (hroot e (by simp))
    -- whatever the workspace does at this event is not by the editor
    have hsilent : ∀ op ∈ ops, op.isByEditor p = false := by
      intro op hop
      simpa [Event.isByEditor, hops op hop] using heditor e (by simp)
    obtain ⟨v, hv, hvroot, hvtext⟩ := ih (h.step e) hmem
      (fun e' he' => by
        rw [run_root]
        exact hroot e' (List.mem_cons_of_mem _ he'))
      (fun e' he' => heditor e' (List.mem_cons_of_mem _ he'))
    refine ⟨v, hv, hvroot.trans (run_root w ops), hvtext.trans ?_⟩
    exact editorText?_run hsilent w

/-- The owner of a path receives what the editor sends for it. -/
theorem Distinct.exists_editorText?_edit (h : Distinct ws) (howner : ws.owner? q = some w)
    (hpq : q.same p = true) (text : String) (now : Nat) :
    ∃ v ∈ ws.step (.edit q text now), v.root = w.root ∧ v.editorText? p = some text := by
  obtain ⟨hw, -, -⟩ := owner?_eq_some howner
  refine ⟨(w.step (.edit q text now)).2, ?_, step_root w _,
    editorText?_edit w hpq text now⟩
  change _ ∈ (ws.withOwner q (·.step (.edit q text now))).2
  rw [act_eq_map h]
  exact List.mem_map.2 ⟨w, hw, by simp [howner, Path.same_refl]⟩

/-- **The editor's text wins.** Take any run in which the editor sends a text for a document, and
after which it does nothing with that document again, whatever else happens. If the workspace that
owned the path when the text was sent has not been dropped or replaced since, and owns the path now,
then the text that it holds for the document is the one that was sent. -/
theorem editor_text_wins (before after : List Event) {p q : Path} (hpq : q.same p = true)
    (text : String) (now : Nat) {w v : Workspace} (howner : (run before).owner? q = some w)
    (hroot : ∀ e ∈ after, e.replaces w.root = false)
    (heditor : ∀ e ∈ after, e.isByEditor p = false)
    (hnow : (run (before ++ .edit q text now :: after)).owner? p = some v)
    (hsame : v.root.same w.root = true) : v.text? p = some text := by
  have hbefore := distinct_run before
  have hrun : run (before ++ .edit q text now :: after) =
      after.foldl step ((run before).step (.edit q text now)) := by
    rw [run, List.foldl_append]
    rfl
  obtain ⟨u, hu, huroot, hutext⟩ := hbefore.exists_editorText?_edit howner hpq text now
  obtain ⟨u', hu', hroot', htext'⟩ :=
    (hbefore.step (.edit q text now)).exists_editorText? hu (huroot ▸ hroot) heditor
  have hdistinct := distinct_run (before ++ .edit q text now :: after)
  rw [hrun] at hnow hdistinct
  -- the workspace that has the text is the one that owns the path
  obtain ⟨hv, -, -⟩ := owner?_eq_some hnow
  obtain rfl : v = u' := hdistinct.eq_of_same hv hu' (by rw [hroot', huroot]; exact hsame)
  exact text?_of_editorText? (htext'.trans hutext)

/-- A text is sent, a root further inside is registered and dropped again, and the document changes
on disk. -/
theorem editor_text_wins_of_passing_root :
    let p : Path := ⟨"/w/n/a.thrd"⟩
    let before : List Event := [.load ⟨"/w"⟩ [(p, "0")] {}]
    let after : List Event := [.load ⟨"/w/n"⟩ [(p, "0")] {}, .drop ⟨"/w/n/"⟩,
      .act p (.change p "2" 9) (by simp [Operation.path?]), .poll 5000]
    ∃ v, (run (before ++ .edit p "1" 7 :: after)).owner? p = some v ∧ v.text? p = some "1" := by
  intro p before after
  have hbefore : ((run before).owner? p).map (·.root.text) = some "/w" := by decide +kernel
  obtain ⟨w, howner, hw⟩ := Option.map_eq_some_iff.1 hbefore
  have hnow : ((run (before ++ .edit p "1" 7 :: after)).owner? p).map (·.root.text) =
      some "/w" := by
    decide +kernel
  obtain ⟨v, hv, hvw⟩ := Option.map_eq_some_iff.1 hnow
  have hroot : w.root = ⟨"/w"⟩ := congrArg Path.mk hw
  have hsame : v.root.same w.root = true := by
    rw [show v.root = w.root from congrArg Path.mk (hvw.trans hw.symm)]
    exact Path.same_refl _
  have hkept : ∀ e ∈ after, e.replaces w.root = false := by
    rw [hroot]
    decide +kernel
  have hsilent : ∀ e ∈ after, e.isByEditor p = false := by decide +kernel
  exact ⟨v, hv, editor_text_wins before after
    (Path.same_refl p) "1" 7 howner hkept hsilent hv hsame⟩

/-- Two runs after which an open document has its text on disk: the root is registered again, or one
further inside is. -/
theorem new_root_forgets_editor_text :
    let p : Path := ⟨"/w/n/a.thrd"⟩
    let load (root : Path) : Event := .load root [(p, "0")] {}
    ((run [load ⟨"/w"⟩, .edit p "1" 0, load ⟨"/w"⟩]).owner? p).bind (·.text? p) = some "0" ∧
    ((run [load ⟨"/w"⟩, .edit p "1" 0, load ⟨"/w/n"⟩]).owner? p).bind (·.text? p) = some "0" := by
  decide +kernel

end Workspaces

end TypedNotation
