import TypedNotation.Diagnostic
import TypedNotation.Editor.Capabilities
import TypedNotation.Editor.Message
import TypedNotation.Settings.OfJson
import TypedNotation.Uri.Reference

/-!
# What an editor tells and asks

Notifications are read as events and requests as queries. A notification of another method, or one
whose parameters cannot be read, is no event; a request is then refused.

The parameters are read in full, also where only their form matters.
-/

namespace TypedNotation

/-- A file of which the editor knows that it changed. -/
structure FileEvent where
  uri : Uri
  isDeleted : Bool
  deriving DecidableEq, Inhabited

/-- What an editor tells. -/
inductive Event where
  | opened (uri : Uri) (text : String)
  /-- Of several changes sent at once each has the whole text, so the last one counts. -/
  | changed (uri : Uri) (text : String)
  | saved (uri : Uri)
  | closed (uri : Uri)
  | configured (settings : Settings)
  | filesChanged (files : List FileEvent)
  | foldersChanged (added removed : List Uri)

/-- What an editor asks. -/
inductive Query where
  | completion (uri : Uri) (position : Position)
  | hover (uri : Uri) (position : Position)
  /-- The actions on a document, perhaps only those of some kinds. -/
  | actions (uri : Uri) (only : Option (List String))

/-- What an editor asks for at the start. -/
structure Greeting where
  roots : List Path
  deriving Inhabited

namespace Params

/-- A URI. -/
def uri? (j : Json) : Option Uri :=
  j.text?.bind Uri.read?

/-- A position. -/
def position? (j : Json) : Option Position := do
  let j ← j.record? ["line", "character"]
  let line ← j.required? "line" Json.unsigned32?
  let character ← j.required? "character" Json.unsigned32?
  return ⟨line, character⟩

/-- A range. -/
def range? (j : Json) : Option Range := do
  let j ← j.record? ["start", "end"]
  let start ← j.required? "start" position?
  let stop ← j.required? "end" position?
  return ⟨start, stop⟩

/-- The name of a document. -/
def document? (j : Json) : Option Uri := do
  let j ← j.record? ["uri"]
  j.required? "uri" uri?

/-- The name of a document with a version. -/
def versioned? (j : Json) : Option Uri := do
  let j ← j.record? ["uri", "version"]
  let uri ← j.required? "uri" uri?
  let _ ← j.required? "version" Json.signed32?
  return uri

/-- A document with its text. -/
def item? (j : Json) : Option (Uri × String) := do
  let j ← j.record? ["uri", "languageId", "version", "text"]
  let uri ← j.required? "uri" uri?
  let _ ← j.required? "languageId" Json.text?
  let _ ← j.required? "version" Json.signed32?
  let text ← j.required? "text" Json.text?
  return (uri, text)

/-- A change of a document, as its new text. -/
def change? (j : Json) : Option String := do
  let j ← j.record? ["range", "rangeLength", "text"]
  let _ ← j.optional? "range" range?
  let _ ← j.optional? "rangeLength" Json.unsigned32?
  j.required? "text" Json.text?

/-- A number or a text that names something. -/
def token? : Json → Option Unit :=
  Json.either? (Json.accepts? Json.signed32?) (Json.accepts? Json.text?)

/-- The tokens by which an editor follows the progress of a request. -/
def progress? (j : Json) : Option Unit := do
  let _ ← j.optional? "workDoneToken" token?
  return ()

/-- The token under which an editor takes results in parts. -/
def partial? (j : Json) : Option Unit := do
  let _ ← j.optional? "partialResultToken" token?
  return ()

/-- A place in a document. -/
def place? (j : Json) : Option (Uri × Position) := do
  let j ← j.object?
  let uri ← j.required? "textDocument" document?
  let position ← j.required? "position" position?
  let _ ← progress? j
  return (uri, position)

/-- How a completion came about. -/
def trigger? (j : Json) : Option Unit := do
  let j ← j.record? ["triggerKind", "triggerCharacter"]
  let _ ← j.required? "triggerKind" Json.signed32?
  let _ ← j.optional? "triggerCharacter" Json.text?
  return ()

/-- A remark of a finding that the editor sends back. -/
def related? (j : Json) : Option Unit := do
  let j ← j.record? ["location", "message"]
  let _ ← j.required? "location" fun l => do
    let l ← l.record? ["uri", "range"]
    let _ ← l.required? "uri" uri?
    l.required? "range" range?
  let _ ← j.required? "message" Json.text?
  return ()

/-- A finding that the editor sends back. -/
def finding? (j : Json) : Option Unit := do
  let j ← j.record?
    ["range", "severity", "code", "codeDescription", "source", "message", "relatedInformation",
     "tags", "data"]
  let _ ← j.required? "range" range?
  let _ ← j.optional? "severity" Json.signed32?
  let _ ← j.optional? "code" token?
  let _ ← j.optional? "codeDescription" fun d => do
    let d ← d.record? ["href"]
    d.required? "href" uri?
  let _ ← j.optional? "source" Json.text?
  let _ ← j.required? "message" Json.text?
  let _ ← j.optional? "relatedInformation" (Json.list? related?)
  let _ ← j.optional? "tags" (Json.list? Json.signed32?)
  return ()

/-- The kinds of actions that are wanted. -/
def wanted? (j : Json) : Option (Option (List String)) := do
  let j ← j.record? ["diagnostics", "only", "triggerKind"]
  let _ ← j.required? "diagnostics" (Json.list? finding?)
  let only ← j.optional? "only" (Json.list? Json.text?)
  let _ ← j.optional? "triggerKind" Json.signed32?
  return only

/-- A folder of the editor. -/
def folder? (j : Json) : Option Uri := do
  let j ← j.record? ["uri", "name"]
  let uri ← j.required? "uri" uri?
  let _ ← j.required? "name" Json.text?
  return uri

/-- A file that changed. -/
def file? (j : Json) : Option FileEvent := do
  let j ← j.record? ["uri", "type"]
  let uri ← j.required? "uri" uri?
  let kind ← j.required? "type" Json.signed32?
  return ⟨uri, kind == 3⟩

/-- How much an editor wants to be told. -/
def trace? : Json → Option Unit :=
  (Json.Form.word ["off", "messages", "verbose"]).read?

/-- What the client is called. -/
def client? (j : Json) : Option Unit := do
  let j ← j.record? ["name", "version"]
  let _ ← j.required? "name" Json.text?
  let _ ← j.optional? "version" Json.text?
  return ()

end Params

open Params

namespace Event

/-- The event of a notification. -/
def ofNotification? (n : Notification) : Option Event :=
  match n.method with
  | "textDocument/didOpen" => do
    let j ← n.params.record? ["textDocument"]
    let (uri, text) ← j.required? "textDocument" item?
    return opened uri text
  | "textDocument/didChange" => do
    let j ← n.params.record? ["textDocument", "contentChanges"]
    let uri ← j.required? "textDocument" versioned?
    let changes ← j.required? "contentChanges" (Json.list? change?)
    let text ← changes.getLast?
    return changed uri text
  | "textDocument/didSave" => do
    let j ← n.params.record? ["textDocument", "text"]
    let uri ← j.required? "textDocument" document?
    let _ ← j.optional? "text" Json.text?
    return saved uri
  | "textDocument/didClose" => do
    let j ← n.params.record? ["textDocument"]
    let uri ← j.required? "textDocument" document?
    return closed uri
  | "workspace/didChangeConfiguration" => do
    let j ← n.params.record? ["settings"]
    let settings ← j.required? "settings" Settings.ofEditor?
    return configured settings
  | "workspace/didChangeWatchedFiles" => do
    let j ← n.params.record? ["changes"]
    let files ← j.required? "changes" (Json.list? file?)
    return filesChanged files
  | "workspace/didChangeWorkspaceFolders" => do
    let j ← n.params.record? ["event"]
    let j ← j.required? "event" (Json.record? ["added", "removed"])
    let added ← j.required? "added" (Json.list? folder?)
    let removed ← j.required? "removed" (Json.list? folder?)
    return foldersChanged added removed
  | _ => none

end Event

namespace Query

/-- A query whose parameters could be read. -/
def checked : Option Query → Except RequestError Query
  | some q => .ok q
  | none => .error .invalidParams

/-- The query of a request. -/
def ofRequest (r : Request) : Except RequestError Query :=
  match r.method with
  | "textDocument/completion" => checked do
    let (uri, position) ← place? r.params
    let _ ← partial? r.params
    let _ ← r.params.optional? "context" trigger?
    return completion uri position
  | "textDocument/hover" => checked do
    let (uri, position) ← place? r.params
    return hover uri position
  | "textDocument/codeAction" => checked do
    let j ← r.params.object?
    let uri ← j.required? "textDocument" document?
    let _ ← j.required? "range" range?
    let only ← j.required? "context" wanted?
    let _ ← progress? j
    let _ ← partial? j
    return actions uri only
  | method => .error (.unknownMethod method)

end Query

namespace Greeting

/-- The folders an editor starts with: those of its workspace, else its root, given as a URI or else
as a path. -/
def chooseRoots (folders : Option (List Uri)) (rootUri : Option Uri) (rootPath : Option String) :
    List Path :=
  match folders, rootUri, rootPath with
  | some (uri :: more), _, _ => (uri :: more).map (·.path)
  | _, some uri, _ => [uri.path]
  | _, none, some path => if path.isEmpty then [] else [⟨path⟩]
  | _, none, none => []

/-- Reads the parameters of the first request. -/
def read? (j : Json) : Option Greeting := do
  let j ← j.object?
  let _ ← j.optional? "processId" Json.unsigned32?
  let rootPath ← j.optional? "rootPath" Json.text?
  let rootUri ← j.optional? "rootUri" uri?
  let _ ← j.required? "capabilities" Capabilities.form.read?
  let _ ← j.optional? "trace" trace?
  let folders ← j.optional? "workspaceFolders" (Json.list? folder?)
  let _ ← j.optional? "clientInfo" client?
  let _ ← j.optional? "locale" Json.text?
  let _ ← progress? j
  return ⟨chooseRoots folders rootUri rootPath⟩

end Greeting

end TypedNotation
