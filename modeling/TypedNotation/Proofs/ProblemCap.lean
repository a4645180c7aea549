import TypedNotation.CommandLine.Run
import TypedNotation.Disk.Memory
import TypedNotation.Proofs.Severities

/-!
# The cap on findings

An analysis keeps a first part of its findings, and the cap says how many. Nothing is moved to the
front, so warnings can take all the places, and then an error behind them is lost
(`comma_hides_error`). What can be said is this (`errors_are_kept_up_to_style`):

* an error is kept exactly if fewer than the cap matters of style come before the first one;
* if there is an error and none is kept, then every kept finding is a matter of style, as many as
  the cap allows, and the document has data. So a document that cannot be read always shows an
  error;
* a check of files in which no analysis breaks off ends with an error exactly if something cannot be
  read or one of the files keeps an error.
-/

namespace TypedNotation

open List Disk Command
open Diagnostic (IsStyle IsGraded AllGraded)

/-! ### Kept findings -/

namespace Diagnostic

/-- Graded findings with an error start with matters of style, up to the first error. -/
theorem exists_split_of_exists_isError {ds : List Diagnostic} (hds : AllGraded ds)
    (h : ∃ d ∈ ds, d.isError = true) :
    ∃ style e rest, ds = style ++ e :: rest ∧ (∀ w ∈ style, w.IsStyle) ∧ e.isError = true := by
  induction ds with
  | nil => simp at h
  | cons d ds ih =>
    obtain ⟨hd, hds⟩ := allGraded_cons.1 hds
    rcases hd with hd | hd
    · exact ⟨[], d, ds, rfl, by simp, hd⟩
    · have hrest : ∃ d ∈ ds, d.isError = true := by
        simpa [hd.not_isError] using h
      obtain ⟨style, e, rest, rfl, hstyle, he⟩ := ih hds hrest
      exact ⟨d :: style, e, rest, rfl, forall_mem_cons.2 ⟨hd, hstyle⟩, he⟩

/-- An error is kept exactly if fewer matters of style than are kept come before the first one. -/
theorem exists_isError_take_iff {ds : List Diagnostic} (hds : AllGraded ds) (cap : Nat) :
    (∃ d ∈ ds.take cap, d.isError = true) ↔
      ∃ style e rest, ds = style ++ e :: rest ∧ (∀ w ∈ style, w.IsStyle) ∧ e.isError = true ∧
        style.length < cap := by
  constructor
  · rintro ⟨d, hd, herror⟩
    obtain ⟨style, e, rest, rfl, hstyle, he⟩ :=
      exists_split_of_exists_isError hds ⟨d, mem_of_mem_take hd, herror⟩
    refine ⟨style, e, rest, rfl, hstyle, he, ?_⟩
    -- otherwise only matters of style would be kept
    by_contra hle
    rw [take_append_of_le_length (Nat.le_of_not_lt hle)] at hd
    have hnot := (hstyle d (mem_of_mem_take hd)).not_isError
    rw [hnot] at herror
    cases herror
  · rintro ⟨style, e, rest, rfl, -, he, hlt⟩
    refine ⟨e, ?_, he⟩
    obtain ⟨n, rfl⟩ := Nat.exists_eq_add_of_lt hlt
    simp [take_append, Nat.add_assoc]

/-- If an error is lost, the kept findings are all matters of style, and as many as may be kept. -/
theorem forall_isStyle_take {ds : List Diagnostic} (hds : AllGraded ds) {cap : Nat}
    (h : ∃ d ∈ ds, d.isError = true) (hkept : ¬∃ d ∈ ds.take cap, d.isError = true) :
    (ds.take cap).length = cap ∧ ∀ w ∈ ds.take cap, w.IsStyle := by
  obtain ⟨style, e, rest, rfl, hstyle, he⟩ := exists_split_of_exists_isError hds h
  have hle : cap ≤ style.length := by
    by_contra hlt
    exact hkept ((exists_isError_take_iff hds cap).2
      ⟨style, e, rest, rfl, hstyle, he, Nat.lt_of_not_le hlt⟩)
  rw [take_append_of_le_length hle]
  exact ⟨by simp [hle], fun w hw => hstyle w (mem_of_mem_take hw)⟩

end Diagnostic

namespace Analysis

/-- All findings in a text under a name, however many. -/
def uncut (name text : String) (index : TypeIndex) (settings : Settings) : List Diagnostic :=
  let fileName := DocumentName.base name
  let role := DocumentRole.ofPath ⟨fileName⟩
  findings (Document.parse text) (resolverFor role index) (specOf role fileName index) settings

variable (name text : String) (index : TypeIndex) (settings : Settings)

theorem diagnostics_run :
    (run name text index settings).diagnostics =
      (uncut name text index settings).take settings.maxProblems := rfl

theorem allGraded_uncut : AllGraded (uncut name text index settings) :=
  allGraded_findings text _ _ settings

/-- A document without data starts with an error. -/
theorem exists_uncut_eq_cons (h : (Document.parse text).data = none) :
    ∃ e rest, uncut name text index settings = e :: rest ∧ e.isError = true := by
  obtain ⟨hne, herrors⟩ := Document.forall_isError_of_data_eq_none h
  obtain ⟨e, rest, heq⟩ := exists_cons_of_ne_nil hne
  rw [uncut, findings, heq]
  exact ⟨e, _, rfl, herrors e (by simp [heq])⟩

end Analysis

/-! ### Reading a disk in memory -/

namespace MemoryDisk

/-- The answer that an action gives on a disk. -/
def answer {α : Type} (d : MemoryDisk) (act : StateM MemoryDisk α) : α :=
  (act.run d).1

/-- An action that leaves the disk as it is. -/
def OnlyReads {α : Type} (act : StateM MemoryDisk α) : Prop :=
  ∀ d : MemoryDisk, (act.run d).2 = d

section OnlyReads

variable {α β : Type}

theorem onlyReads_pure (a : α) : OnlyReads (pure a) :=
  fun _ => rfl

theorem OnlyReads.bind {act : StateM MemoryDisk α} {next : α → StateM MemoryDisk β}
    (hact : OnlyReads act) (hnext : ∀ a, OnlyReads (next a)) : OnlyReads (act >>= next) := by
  intro d
  have hd := hact d
  show ((next (act.run d).1).run (act.run d).2).2 = d
  rw [hd]
  exact hnext _ d

@[simp] theorem answer_pure (d : MemoryDisk) (a : α) : d.answer (pure a) = a := rfl

/-- Behind an action that only reads, the next one finds the disk as it was. -/
theorem OnlyReads.answer_bind {act : StateM MemoryDisk α} (hact : OnlyReads act)
    (next : α → StateM MemoryDisk β) (d : MemoryDisk) :
    d.answer (act >>= next) = d.answer (next (d.answer act)) := by
  show ((next (act.run d).1).run (act.run d).2).1 = _
  rw [hact d]
  rfl

theorem onlyReads_readText (p : Path) : OnlyReads (readText p) := by
  refine .bind (fun _ => rfl) fun found => ?_
  split
  · exact onlyReads_pure _
  · split <;> exact onlyReads_pure _

theorem onlyReads_listSources (root : Path) : OnlyReads (listSources root) := by
  refine .bind (fun _ => rfl) fun found => ?_
  split <;> exact onlyReads_pure _

theorem onlyReads_readSources (paths : List Path) : OnlyReads (readSources paths) := by
  induction paths with
  | nil => exact onlyReads_pure _
  | cons p rest ih =>
    refine (onlyReads_readText p).bind fun found => ?_
    split
    · exact ih.bind fun _ => onlyReads_pure _
    · exact ih

theorem onlyReads_loadIndex (root : Path) : OnlyReads (loadIndex root) := by
  refine (onlyReads_listSources root).bind fun found => ?_
  split
  · exact onlyReads_pure _
  · exact (onlyReads_readSources _).bind fun _ => onlyReads_pure _

theorem onlyReads_loadSettings (root : Path) : OnlyReads (loadSettings root) := by
  refine (onlyReads_readText _).bind fun found => ?_
  split
  · split <;> exact onlyReads_pure _
  · exact onlyReads_pure _
  · exact onlyReads_pure _

end OnlyReads

end MemoryDisk

/-! ### Checking files -/

namespace Command

open MemoryDisk

/-- A file with its text, if it can be read. -/
def readFile? (d : MemoryDisk) (p : Path) : Option (Path × String) :=
  (d.answer (readText p)).toOption.map (p, ·)

/-- The project and the files that a check looks at, unless something cannot be read. -/
def readProject? (d : MemoryDisk) (o : CommonOptions) (files : List Path) :
    Option (Project × List (Path × String)) := do
  let settings ← (d.answer (loadSettings o.root)).toOption
  let index ← (d.answer (loadIndex o.root)).toOption
  let paths ← if files.isEmpty then (d.answer (listSources o.root)).toOption else some files
  let texts ← paths.mapM (readFile? d)
  return (⟨settings, index⟩, texts)

/-- A check ends with an error if one was kept. -/
theorem exitCode_checkOutcome (o : CommonOptions) (checked : List (Path × Analysis)) :
    (checkOutcome o checked).exitCode =
      if checked.any (·.2.diagnostics.any (·.isError)) then 1 else 0 := by
  have hcount : (checked.flatMap (·.2.diagnostics)).countP (·.severity == .error) = 0 ↔
      ¬checked.any (·.2.diagnostics.any (·.isError)) = true := by
    rw [countP_eq_zero]
    constructor
    · intro hnone hany
      obtain ⟨a, ha, hfound⟩ := any_eq_true.1 hany
      obtain ⟨d, hd, herror⟩ := any_eq_true.1 hfound
      exact hnone d (mem_flatMap.2 ⟨a, ha, hd⟩) herror
    · intro hany d hd herror
      obtain ⟨a, ha, hd⟩ := mem_flatMap.1 hd
      exact hany (any_eq_true.2 ⟨a, ha, any_eq_true.2 ⟨d, hd, herror⟩⟩)
  unfold checkOutcome tally
  dsimp only
  by_cases hany : checked.any (·.2.diagnostics.any (·.isError)) = true
  · rw [if_pos hany, if_neg fun h => hcount.1 h hany]
  · rw [if_neg hany, if_pos (hcount.2 hany)]

section

variable {d : MemoryDisk} {o : CommonOptions} {project : Project} {checked : List (Path × Analysis)}
  {files : List Path}

/-- A check reads the files one by one. It stops at a file that cannot be read, and where an
analysis breaks off. -/
theorem exitCode_checkFiles_cons (file : Path) :
    (d.answer (checkFiles o project checked (file :: files))).exitCode =
      match readFile? d file with
      | none => 1
      | some (_, text) =>
        if (project.analysis file text).brokeOff then 101
        else (d.answer
          (checkFiles o project
            (checked ++ [(file, project.analysis file text)]) files)).exitCode := by
  rw [checkFiles, (onlyReads_readText file).answer_bind, readFile?]
  cases d.answer (readText file) with
  | error e => rfl
  | ok text =>
    dsimp only [Except.toOption, Option.map_some]
    split <;> rfl

/-- The exit code of a check in which no analysis breaks off. -/
theorem exitCode_checkFiles (h : (d.answer (checkFiles o project checked files)).exitCode ≠ 101) :
    (d.answer (checkFiles o project checked files)).exitCode =
      match files.mapM (readFile? d) with
      | none => 1
      | some texts => (checkOutcome o
          (checked ++ texts.map fun f => (f.1, project.analysis f.1 f.2))).exitCode := by
  induction files generalizing checked with
  | nil => simp [checkFiles]
  | cons file rest ih =>
    rw [exitCode_checkFiles_cons] at h ⊢
    cases hread : readFile? d file with
    | none => simp [hread]
    | some f =>
      obtain ⟨text, -, rfl⟩ := Option.map_eq_some_iff.1 hread
      simp only [hread] at h ⊢
      split at h
      next => exact absurd rfl h
      next hgoes =>
        rw [if_neg hgoes, ih h]
        cases hrest : rest.mapM (readFile? d) <;> simp [hread, hrest]

/-- Of files that can be read, one at which the analysis breaks off ends the check. -/
theorem exitCode_checkFiles_eq_iff {texts : List (Path × String)}
    (h : files.mapM (readFile? d) = some texts) :
    (d.answer (checkFiles o project checked files)).exitCode = 101 ↔
      ∃ f ∈ texts, (project.analysis f.1 f.2).brokeOff = true := by
  induction files generalizing checked texts with
  | nil =>
    obtain rfl : texts = [] := by simpa using h.symm
    rw [checkFiles, answer_pure, exitCode_checkOutcome]
    split <;> simp
  | cons file rest ih =>
    rw [mapM_cons] at h
    obtain ⟨f, hread, hrest⟩ := Option.bind_eq_some_iff.1 h
    obtain ⟨more, hmore, htexts⟩ := Option.bind_eq_some_iff.1 hrest
    obtain rfl := Option.some.inj htexts
    rw [exitCode_checkFiles_cons, hread]
    obtain ⟨text, -, rfl⟩ := Option.map_eq_some_iff.1 hread
    dsimp only
    split
    next hbroke => simp [hbroke]
    next hgoes => simp [hgoes, ih hmore]

end

/-- The project and the paths of the files that a check looks at, unless something is missing. -/
def openProject? (d : MemoryDisk) (o : CommonOptions) (files : List Path) :
    Option (Project × List Path) := do
  let settings ← (d.answer (loadSettings o.root)).toOption
  let index ← (d.answer (loadIndex o.root)).toOption
  let paths ← if files.isEmpty then (d.answer (listSources o.root)).toOption else some files
  return (⟨settings, index⟩, paths)

theorem readProject?_eq (d : MemoryDisk) (o : CommonOptions) (files : List Path) :
    readProject? d o files =
      (openProject? d o files).bind fun x => (x.2.mapM (readFile? d)).map (x.1, ·) := by
  unfold readProject? openProject?
  cases files.isEmpty <;> simp [Option.bind_assoc, Option.map_eq_bind, Function.comp_def]

theorem exitCode_runCheck (d : MemoryDisk) (o : CommonOptions) (files : List Path) :
    (d.answer (runCheck o files)).exitCode =
      match openProject? d o files with
      | none => 1
      | some (project, paths) => (d.answer (checkFiles o project [] paths)).exitCode := by
  rw [runCheck, withProject, (onlyReads_loadSettings o.root).answer_bind]
  unfold openProject?
  cases d.answer (loadSettings o.root) with
  | error e => rfl
  | ok settings =>
    dsimp only
    rw [(onlyReads_loadIndex o.root).answer_bind]
    cases d.answer (loadIndex o.root) with
    | error e => rfl
    | ok index =>
      dsimp only
      cases hfiles : files.isEmpty with
      | true =>
        simp only [if_true]
        rw [(onlyReads_listSources o.root).answer_bind]
        cases d.answer (listSources o.root) <;> rfl
      | false => rfl

/-- Whether a file of a project keeps an error. -/
def KeepsError (project : Project) (f : Path × String) : Prop :=
  ∃ e ∈ (Analysis.uncut f.1.text f.2 project.index project.settings).take
    project.settings.maxProblems, e.isError = true

theorem any_isError_analysis_iff (project : Project) (texts : List (Path × String)) :
    (texts.map fun f => (f.1, project.analysis f.1 f.2)).any (·.2.diagnostics.any (·.isError)) =
      true ↔
      ∃ f ∈ texts, KeepsError project f := by
  simp only [any_map, any_eq_true, Function.comp]
  rfl

/-- Unless an analysis breaks off, a check ends with an error exactly if something cannot be read or
some file keeps an error. -/
theorem exitCode_runCheck_eq_one_iff {d : MemoryDisk} {o : CommonOptions} {files : List Path}
    (h : (d.answer (runCheck o files)).exitCode ≠ 101) :
    (d.answer (runCheck o files)).exitCode = 1 ↔
      readProject? d o files = none ∨ ∃ project texts,
        readProject? d o files = some (project, texts) ∧ ∃ f ∈ texts, KeepsError project f := by
  rw [readProject?_eq]
  rw [exitCode_runCheck] at h ⊢
  cases hopen : openProject? d o files with
  | none => simp
  | some x =>
    obtain ⟨project, paths⟩ := x
    simp only [hopen, Option.bind_some] at h ⊢
    rw [exitCode_checkFiles h]
    cases paths.mapM (readFile? d) with
    | none => simp
    | some texts =>
      dsimp only
      rw [nil_append, exitCode_checkOutcome, ite_eq_left_iff, any_isError_analysis_iff]
      simp

/-- A check of files that can all be read ends early exactly if the analysis of one of them breaks
off. -/
theorem exitCode_runCheck_eq_iff {d : MemoryDisk} {o : CommonOptions} {files : List Path}
    {project : Project} {texts : List (Path × String)}
    (h : readProject? d o files = some (project, texts)) :
    (d.answer (runCheck o files)).exitCode = 101 ↔
      ∃ f ∈ texts, (project.analysis f.1 f.2).brokeOff = true := by
  rw [readProject?_eq] at h
  obtain ⟨⟨project', paths⟩, hopen, hread⟩ := Option.bind_eq_some_iff.1 h
  obtain ⟨texts', hmap, heq⟩ := Option.map_eq_some_iff.1 hread
  obtain ⟨rfl, rfl⟩ := Prod.mk.inj heq
  rw [exitCode_runCheck, hopen]
  exact exitCode_checkFiles_eq_iff hmap

end Command

/-! ### What the cap hides -/

namespace Analysis

/-- **What the cap hides.** With a cap of at least one, an analysis keeps an error exactly if fewer
matters of style than the cap come before the first error of the uncut findings. Where it loses all
errors, it keeps as many matters of style as the cap allows and nothing else, and the document has
data. A check of files, on any disk, ends with an error exactly if something cannot be read or some
file keeps an error in this sense; that is, unless an analysis breaks off, and among files that can
be read there is no other reason for the exit code of that. -/
theorem errors_are_kept_up_to_style (name text : String) (index : TypeIndex) (settings : Settings)
    (hcap : 1 ≤ settings.maxProblems) :
    (∀ cap, (uncut name text index settings).length ≤ cap →
      (run name text index { settings with maxProblems := cap }).diagnostics =
        uncut name text index settings) ∧
    ((∃ d ∈ (run name text index settings).diagnostics, d.isError = true) ↔
      ∃ style e rest, uncut name text index settings = style ++ e :: rest ∧
        (∀ w ∈ style, w.IsStyle) ∧ e.isError = true ∧ style.length < settings.maxProblems) ∧
    ((∃ d ∈ uncut name text index settings, d.isError = true) →
      (∃ d ∈ (run name text index settings).diagnostics, d.isError = true) ∨
      ((run name text index settings).diagnostics.length = settings.maxProblems ∧
        (∀ w ∈ (run name text index settings).diagnostics, w.IsStyle) ∧
        (Document.parse text).data.isSome = true)) ∧
    ∀ (d : MemoryDisk) (o : CommonOptions) (files : List Path),
      ((d.answer (runCheck o files)).exitCode ≠ 101 →
        ((d.answer (runCheck o files)).exitCode = 1 ↔
          readProject? d o files = none ∨ ∃ project texts,
            readProject? d o files = some (project, texts) ∧
              ∃ f ∈ texts, KeepsError project f)) ∧
      ∀ project texts, readProject? d o files = some (project, texts) →
        ((d.answer (runCheck o files)).exitCode = 101 ↔
          ∃ f ∈ texts, (project.analysis f.1 f.2).brokeOff = true) := by
  have hgraded := allGraded_uncut name text index settings
  refine ⟨fun cap hle => ?_, ?_, ?_, fun d o files =>
    ⟨exitCode_runCheck_eq_one_iff, fun _ _ => exitCode_runCheck_eq_iff⟩⟩
  · rw [diagnostics_run]
    exact take_of_length_le hle
  · rw [diagnostics_run]
    exact Diagnostic.exists_isError_take_iff hgraded settings.maxProblems
  · intro herror
    rw [diagnostics_run]
    by_cases hkept : ∃ d ∈ (uncut name text index settings).take settings.maxProblems,
        d.isError = true
    · exact .inl hkept
    · obtain ⟨hlength, hstyle⟩ := Diagnostic.forall_isStyle_take hgraded herror hkept
      refine .inr ⟨hlength, hstyle, ?_⟩
      -- without data the first finding is an error, and the cap keeps it
      by_contra hnone
      rw [Option.not_isSome_iff_eq_none] at hnone
      obtain ⟨e, rest, heq, he⟩ := exists_uncut_eq_cons name text index settings hnone
      obtain ⟨n, hn⟩ := Nat.exists_eq_add_of_le' hcap
      exact hkept ⟨e, by simp [heq, hn], he⟩

/-- In `[,,]` an error stands behind one matter of style, so room for two findings is enough. -/
theorem errors_are_kept_up_to_style_of_commas :
    let settings : Settings := { maxProblems := 2 }
    1 ≤ settings.maxProblems ∧
      ((∃ d ∈ (run "x.txt" "[,,]" (.build []) settings).diagnostics, d.isError = true) ↔
        ∃ style e rest, uncut "x.txt" "[,,]" (.build []) settings = style ++ e :: rest ∧
          (∀ w ∈ style, w.IsStyle) ∧ e.isError = true ∧ style.length < settings.maxProblems) ∧
      ∃ d ∈ (run "x.txt" "[,,]" (.build []) settings).diagnostics, d.isError = true :=
  ⟨by decide, (errors_are_kept_up_to_style "x.txt" "[,,]" (.build []) _ (by decide)).2.1,
    by decide +kernel⟩

/-- In `[,,]` the first comma is needless and the second out of place. With room for one finding,
the warning is kept and the error is not. -/
theorem comma_hides_error :
    ∃ name text index settings, 1 ≤ settings.maxProblems ∧
      (∃ d ∈ uncut name text index settings, d.isError = true) ∧
      ¬∃ d ∈ (run name text index settings).diagnostics, d.isError = true := by
  refine ⟨"x.txt", "[,,]", .build [], { maxProblems := 1 }, by decide, ?_⟩
  decide +kernel

end Analysis

end TypedNotation
