import TypedNotation.Disk
import TypedNotation.Editor.Event
import TypedNotation.Editor.View
import TypedNotation.Workspace

/-!
# The server

The server keeps a workspace for each folder of the editor, and one for each document outside of
them. It publishes what it finds. A document is published under the URI that the editor used for it,
as long as it is open. When an analysis breaks off, nothing is sent of what it was made for, nor
anything after that.
-/

namespace TypedNotation

/-- What the server knows. -/
structure Server where
  workspaces : Workspaces := []
  /-- Settings sent by the editor, which go before those on disk. -/
  editorSettings : Option Settings := none
  /-- The URIs of open documents, as the editor spells them. -/
  uris : PathMap Uri := []

namespace Server

/-- The URI of a document. -/
def uriOf (s : Server) (p : Path) : Uri :=
  (s.uris.find? p).getD (.ofPath p)

/-- Tells the editor what was found in a document. -/
def publish (s : Server) : Published → Message
  | (p, found) =>
    let uri := s.uriOf p
    .notification
      ⟨"textDocument/publishDiagnostics",
        .obj [("uri", uri.text), ("diagnostics", .arr (found.map (·.view uri)))]⟩

/-- The server with other workspaces. -/
def withWorkspaces (s : Server) (workspaces : Workspaces) : Server :=
  { s with workspaces }

/-- Whether an analysis broke off. -/
def brokeOff (s : Server) : Bool :=
  s.workspaces.any (·.brokeOff)

/-- Sends messages, unless an analysis broke off on the way to them. -/
def sending (s : Server) (messages : List Message) : List Message × Server :=
  (if s.brokeOff then [] else messages, s)

/-! ### Queries -/

/-- Answers a query. -/
def answer (s : Server) : Query → Json × Server
  | .completion uri position =>
    let (found, ws) := s.workspaces.withOwner uri.path (·.completionsAt uri.path position)
    (.arr ((found.getD []).map (·.view)), s.withWorkspaces ws)
  | .hover uri position =>
    let (found, ws) := s.workspaces.withOwner uri.path (·.hoverAt uri.path position)
    (.ofOption (found.join.map (·.view)), s.withWorkspaces ws)
  | .actions uri only =>
    if FixAll.isWanted only then
      let (found, ws) := s.workspaces.withOwner uri.path (·.fixAll uri.path)
      (.arr [FixAll.action uri (found.join.getD [])], s.withWorkspaces ws)
    else (.arr [], s)

/-- Answers a request. -/
def respond (s : Server) (r : Request) : List Message × Server :=
  match Query.ofRequest r with
  | .error e => ([.failure r.id e], s)
  | .ok q =>
    let (result, s) := s.answer q
    s.sending [.result r.id result]

/-! ### Events -/

section Events

variable {m : Type → Type} [Monad m] [MonadDisk m]

/-- The settings for a root. -/
def settingsAt (s : Server) (root : Path) : m Settings := do
  match s.editorSettings with
  | some settings => return settings
  | none =>
    match ← Disk.loadSettings root with
    | .ok settings => return settings
    | .error _ => return {}

/-- Adds the workspace of a root and publishes it. A root that cannot be read is left out. -/
def addWorkspace (s : Server) (root : Path) : m (List Message × Server) := do
  let settings ← s.settingsAt root
  match ← Disk.loadSources root with
  | .error _ => return ([], s)
  | .ok sources =>
    let (found, w) := (Workspace.ofSources root sources settings).validateAll
    let s := s.withWorkspaces (s.workspaces.add w)
    return s.sending (found.map s.publish)

/-- Adds the workspaces of some roots. -/
def addWorkspaces (s : Server) : List Path → m (List Message × Server)
  | [] => return ([], s)
  | root :: rest => do
    let (sent, s) ← s.addWorkspace root
    if s.brokeOff then return (sent, s)
    else
      let (more, s) ← s.addWorkspaces rest
      return (sent ++ more, s)

/-- The first directory that looks like the root of a project. -/
def firstRoot? : List Path → m (Option Path)
  | [] => return none
  | dir :: rest => do
    if ← MonadDisk.isThere (dir.join Disk.settingsFile) then return some dir
    else if ← MonadDisk.isThere (dir.join ⟨".git"⟩) then return some dir
    else firstRoot? rest

/-- The root of the project of a file: the nearest directory above it that looks like one, or else
the one it is in. -/
def projectRoot? (p : Path) : m (Option Path) := do
  match p.parent? with
  | none => return none
  | some dir => return some ((← firstRoot? dir.selfAndAncestors).getD dir)

/-- The server with a workspace that owns a path. -/
def ensureOwner (s : Server) (p : Path) : m Server := do
  if (s.workspaces.owner? p).isSome then return s
  else
    match ← projectRoot? p with
    | none => return s
    | some root =>
      let settings ← s.settingsAt root
      let w := match ← Disk.loadSources root with
        | .ok sources => Workspace.ofSources root sources settings
        | .error _ => .empty root {}
      return s.withWorkspaces (s.workspaces.add w)

/-- Takes over a text from the editor and publishes what is found in it. -/
def edit (s : Server) (p : Path) (text : String) (now : Nat) : m (List Message × Server) := do
  let s ← s.ensureOwner p
  let (found, ws) := s.workspaces.withOwner p (·.editInEditor p text now)
  let s := s.withWorkspaces ws
  return s.sending (found.map fun found => s.publish (p, found)).toList

/-- Takes over the text of a file on disk, if it can be read. -/
def reload (s : Server) (p : Path) (now : Nat) : m Server := do
  match ← Disk.readText p with
  | .error _ => return s
  | .ok text =>
    let (_, ws) := s.workspaces.withOwner p fun w => ((), w.addOnDisk p text now)
    return s.withWorkspaces ws

/-- Reacts to a change of a file. -/
def fileChanged (s : Server) (now : Nat) (file : FileEvent) : m (List Message × Server) := do
  let p := file.uri.path
  if !DocumentName.isTracked p then return ([], s)
  else if file.isDeleted then
    let (removed, ws) := s.workspaces.withOwner p (·.removeOnDisk p now)
    let s := s.withWorkspaces ws
    if removed = some true && !s.uris.contains p then return ([s.publish (p, [])], s)
    else return ([], s)
  else return ([], ← s.reload p now)

/-- Reacts to changes of files, one after the other. -/
def filesChanged (s : Server) (now : Nat) : List FileEvent → m (List Message × Server)
  | [] => return ([], s)
  | file :: rest => do
    let (sent, s) ← s.fileChanged now file
    let (more, s) ← s.filesChanged now rest
    return (sent ++ more, s)

/-- Drops the workspace of a root and takes back what was published from it. -/
def dropWorkspace (s : Server) (root : Path) : List Message × Server :=
  let (dropped, ws) := s.workspaces.remove root
  let s := s.withWorkspaces ws
  match dropped with
  | none => ([], s)
  | some w => (w.documents.paths.map fun p => s.publish (p, []), s)

/-- Drops the workspaces of some roots. -/
def dropWorkspaces (s : Server) : List Path → List Message × Server
  | [] => ([], s)
  | root :: rest =>
    let (sent, s) := s.dropWorkspace root
    let (more, s) := s.dropWorkspaces rest
    (sent ++ more, s)

/-- Closes a document and publishes what remains of it: what is found in its text on disk, or
nothing. -/
def close (s : Server) (p : Path) (now : Nat) : List Message × Server :=
  let (found, ws) := s.workspaces.withOwner p fun w => (w.closeInEditor p now).validate p
  let s := s.withWorkspaces ws
  { s with uris := s.uris.erase p }.sending [s.publish (p, found.join.getD [])]

/-- Reacts to an event. -/
def handle (s : Server) (now : Nat) : Event → m (List Message × Server)
  | .opened uri text => { s with uris := s.uris.insert uri.path uri }.edit uri.path text now
  | .changed uri text => s.edit uri.path text now
  | .saved uri => return ([], ← s.reload uri.path now)
  | .closed uri => return s.close uri.path now
  | .configured settings =>
    return ([],
      { s with
        workspaces := s.workspaces.setSettings settings now
        editorSettings := some settings })
  | .filesChanged files => s.filesChanged now files
  | .foldersChanged added removed => do
    let (sent, s) := s.dropWorkspaces (removed.map (·.path))
    let (more, s) ← s.addWorkspaces (added.map (·.path))
    return (sent ++ more, s)

end Events

/-- Refreshes the workspaces for which it is time, and publishes them. -/
def poll (s : Server) (now : Nat) : List Message × Server :=
  let (found, ws) := s.workspaces.poll now
  let s := s.withWorkspaces ws
  s.sending (found.map s.publish)

end Server

end TypedNotation
