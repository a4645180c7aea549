import TypedNotation.Analysis
import TypedNotation.Refresh
import TypedNotation.Sources

/-!
# Workspaces

A workspace holds all that is known of the documents below a root: the text of each one on disk and
in the editor, the types they declare, and the last analysis of each. The text in the editor wins as
long as a document is open.

An analysis is kept together with the *generation* in which it was made. The generation is advanced
whenever all results become outdated at once, by new settings or by a new index of types, and an
analysis is used again only if its generation is current and its text is that of the document.

`Workspaces` holds several of them; the innermost one that contains a path owns it.
-/

namespace TypedNotation

/-- The texts of a document. -/
structure DocumentTexts where
  disk : Option String := none
  editor : Option String := none
  deriving DecidableEq, Inhabited

namespace DocumentTexts

/-- The text that counts. -/
def text (t : DocumentTexts) : String :=
  (t.editor.or t.disk).getD ""

/-- Whether the document is open in the editor. -/
def isOpen (t : DocumentTexts) : Bool :=
  t.editor.isSome

end DocumentTexts

/-- Findings to be shown at a path. -/
abbrev Published := Path × List Diagnostic

/-- What is known of the documents below a root. -/
structure Workspace where
  root : Path
  settings : Settings
  documents : PathMap DocumentTexts := []
  index : TypeIndex := {}
  /-- Whether the index is older than the declarations. -/
  indexStale : Bool := true
  generation : Nat := 0
  /-- The last analyses, each with the generation in which it was made. -/
  results : PathMap (Nat × Analysis) := []
  refresh : Refresh

namespace Workspace

/-- A workspace without documents. -/
def empty (root : Path) (settings : Settings) : Workspace :=
  { root, settings, refresh := { settings := settings.refresh } }

/-- A workspace with some documents on disk. -/
def ofSources (root : Path) (sources : List Source) (settings : Settings) : Workspace :=
  { empty root settings with
    documents := PathMap.ofList (sources.map fun (p, text) => (p, { disk := some text })) }

/-- Whether a path lies in the workspace. -/
def contains (w : Workspace) (p : Path) : Bool :=
  p.isUnder w.root

/-- The text of a document. -/
def text? (w : Workspace) (p : Path) : Option String :=
  (w.documents.find? p).map (·.text)

/-- Whether a document is open in the editor. -/
def isOpen (w : Workspace) (p : Path) : Bool :=
  (w.documents.find? p).any (·.isOpen)

/-- Puts new settings in force. -/
def setSettings (w : Workspace) (settings : Settings) (now : Nat) : Workspace :=
  let refresh :=
    if settings.refresh = w.settings.refresh then w.refresh else { settings := settings.refresh }
  { w with
    settings
    generation := w.generation + 1
    refresh := refresh.schedule now }

/-- Notes that a document was touched. -/
def touched (w : Workspace) (p : Path) (now : Nat) : Workspace :=
  { w with
    indexStale := w.indexStale || (DocumentName.declared? p).isSome
    refresh := w.refresh.schedule now }

/-- Gives a document its texts. -/
def setTexts (w : Workspace) (p : Path) (texts : DocumentTexts) : Workspace :=
  { w with documents := w.documents.insert p texts }

/-- Forgets a document. -/
def forget (w : Workspace) (p : Path) : Workspace :=
  { w with documents := w.documents.erase p, results := w.results.erase p }

/-- Whether an analysis broke off. -/
def brokeOff (w : Workspace) : Bool :=
  w.results.any fun (_, _, a) => a.brokeOff

/-! ### Changes on disk -/

/-- A document has a new text on disk. The answer tells whether the document was known. -/
def changeOnDisk (w : Workspace) (p : Path) (text : String) (now : Nat) : Bool × Workspace :=
  match w.documents.find? p with
  | none => (false, w)
  | some texts => (true, (w.setTexts p { texts with disk := some text }).touched p now)

/-- A document has appeared on disk. -/
def addOnDisk (w : Workspace) (p : Path) (text : String) (now : Nat) : Workspace :=
  if w.documents.contains p then (w.changeOnDisk p text now).2
  else (w.setTexts p { disk := some text }).touched p now

/-- A document has disappeared from disk. It stays as long as it is open in the editor. The answer
tells whether the document was known. -/
def removeOnDisk (w : Workspace) (p : Path) (now : Nat) : Bool × Workspace :=
  match w.documents.find? p with
  | none => (false, w)
  | some texts =>
    let w := if texts.isOpen then w.setTexts p { texts with disk := none } else w.forget p
    (true, w.touched p now)

/-! ### Results -/

/-- The declarations among the documents. -/
def declarations (w : Workspace) : List (String × String) :=
  Source.declarations (w.documents.map fun (p, texts) => (p, texts.text))

/-- The workspace with an index that is not stale. -/
def ensureIndex (w : Workspace) : Workspace :=
  if w.indexStale then
    { w with
      index := .build w.declarations
      indexStale := false
      generation := w.generation + 1 }
  else w

/-- Whether an analysis can be used again for a text. -/
def isFresh (w : Workspace) (text : String) (result : Nat × Analysis) : Bool :=
  result.1 == w.generation && result.2.document.text == text

/-- The current analysis of a document, made anew if there is none. -/
def analysis (w : Workspace) (p : Path) : Option Analysis × Workspace :=
  let w := w.ensureIndex
  match w.text? p with
  | none => (none, w)
  | some text =>
    match (w.results.find? p).filter (w.isFresh text) with
    | some (_, a) => (some a, w)
    | none =>
      let a := Analysis.run p.text text w.index w.settings
      (some a, { w with results := w.results.insert p (w.generation, a) })

/-- The findings of a document. -/
def validate (w : Workspace) (p : Path) : Option (List Diagnostic) × Workspace :=
  let (a, w) := w.analysis p
  (a.map (·.diagnostics), w)

/-- The findings at some paths. -/
def validateEach (w : Workspace) : List Path → List Published × Workspace
  | [] => ([], w)
  | p :: rest =>
    let (found, w) := w.validate p
    let (more, w) := w.validateEach rest
    ((found.map (p, ·)).toList ++ more, w)

/-- The findings of all documents. -/
def validateAll (w : Workspace) : List Published × Workspace :=
  w.validateEach w.documents.paths

/-- The findings of all documents, each analysed anew. -/
def refreshAll (w : Workspace) : List Published × Workspace :=
  validateAll { w with results := [] }

/-- The edits that mend a document. -/
def fixAll (w : Workspace) (p : Path) : Option (List Edit) × Workspace :=
  let (a, w) := w.analysis p
  (a.map (·.fixAll), w)

/-- What may be written at a position of a document. -/
def completionsAt (w : Workspace) (p : Path) (position : Position) : List Candidate × Workspace :=
  let (a, w) := w.analysis p
  ((a.map (·.completionsAt w.index position)).getD [], w)

/-- The type wanted at a position of a document. -/
def hoverAt (w : Workspace) (p : Path) (position : Position) : Option Hover × Workspace :=
  let (a, w) := w.analysis p
  (a.bind (·.hoverAt w.index position), w)

/-! ### Changes in the editor -/

/-- The editor holds a new text of a document, which is looked at right away. -/
def editInEditor (w : Workspace) (p : Path) (text : String) (now : Nat) :
    List Diagnostic × Workspace :=
  let texts := (w.documents.find? p).getD {}
  let (found, w) := ((w.setTexts p { texts with editor := some text }).touched p now).validate p
  (found.getD [], w)

/-- The editor has closed a document. One that is not on disk is forgotten. -/
def closeInEditor (w : Workspace) (p : Path) (now : Nat) : Workspace :=
  match w.documents.find? p with
  | none => w
  | some texts =>
    let w := if texts.disk.isNone then w.forget p else w.setTexts p { texts with editor := none }
    w.touched p now

/-! ### Refreshing -/

/-- Refreshes the workspace if it is time to. -/
def poll (w : Workspace) (now : Nat) : Option (List Published) × Workspace :=
  let (due, refresh) := w.refresh.poll now
  let w := { w with refresh }
  if due then
    let (found, w) := w.refreshAll
    (some found, w)
  else (none, w)

/-- The first time at which a timer runs out. -/
def nextDeadline (w : Workspace) : Option Nat :=
  w.refresh.nextDeadline

end Workspace

/-- Workspaces with different roots, in the order in which they were added. -/
abbrev Workspaces := List Workspace

namespace Workspaces

/-- The workspaces without the one of a root, and that one. -/
def remove (ws : Workspaces) (root : Path) : Option Workspace × Workspaces :=
  (ws.find? (·.root.same root), List.eraseP (·.root.same root) ws)

/-- The workspaces with one more. One of the same root is replaced. -/
def add (ws : Workspaces) (w : Workspace) : Workspaces :=
  (ws.remove w.root).2 ++ [w]

/-- The one of two workspaces whose root is longer; of equals the second. -/
def inner (a b : Workspace) : Workspace :=
  if b.root.components.length < a.root.components.length then a else b

/-- The innermost workspace that contains a path. -/
def owner? (ws : Workspaces) (p : Path) : Option Workspace :=
  match ws.filter (·.contains p) with
  | [] => none
  | w :: rest => some (rest.foldl inner w)

/-- Puts a changed workspace in its place. -/
def put (ws : Workspaces) (w : Workspace) : Workspaces :=
  ws.map fun v => if v.root.same w.root then w else v

/-- Acts on the workspace that owns a path. -/
def withOwner {α : Type} (ws : Workspaces) (p : Path) (act : Workspace → α × Workspace) :
    Option α × Workspaces :=
  match ws.owner? p with
  | none => (none, ws)
  | some w =>
    let (a, w) := act w
    (some a, ws.put w)

/-- The first time at which a timer of a workspace runs out. -/
def nextDeadline (ws : Workspaces) : Option Nat :=
  (ws.filterMap (·.nextDeadline)).min?

/-- Refreshes the workspaces for which it is time. -/
def poll (now : Nat) : Workspaces → List Published × Workspaces
  | [] => ([], [])
  | w :: rest =>
    let (found, w) := w.poll now
    let (more, rest) := poll now rest
    (found.getD [] ++ more, w :: rest)

/-- Puts new settings in force everywhere. -/
def setSettings (ws : Workspaces) (settings : Settings) (now : Nat) : Workspaces :=
  ws.map (·.setSettings settings now)

end Workspaces

end TypedNotation
