import TypedNotation.Editor.Server

/-!
# Sessions

A session starts with a request to initialize, which is answered with what the server can do, and a
notification that the editor is ready. From then on messages are handled one by one, and after each
of them the workspaces are refreshed if it is time. A request to shut down is answered, and after it
only the notification to exit may follow. A session ends at once when an analysis breaks off.
-/

namespace TypedNotation

/-- How a session ends. -/
inductive Session.Ending where
  | good
  | bad
  /-- An analysis broke off. -/
  | brokenOff
  deriving DecidableEq, Inhabited

/-- How far a session has come. -/
inductive Session where
  | starting
  /-- The first request is answered; the editor is not ready yet. -/
  | greeted (params : Json)
  | running (server : Server)
  /-- The request to shut down is answered. -/
  | stopping
  | ended (ending : Session.Ending)

namespace Session

/-- What the server can do. -/
def capabilities : Json :=
  .obj
    [("textDocumentSync", .obj [("openClose", true), ("change", (1 : Nat)), ("save", true)]),
     ("hoverProvider", true),
     ("completionProvider",
      .obj [("resolveProvider", false), ("triggerCharacters", .arr [":", " ", "#"])]),
     ("codeActionProvider", .obj [("codeActionKinds", .arr [FixAll.kind, FixAll.ownKind])]),
     ("workspace",
      .obj [("workspaceFolders", .obj [("supported", true), ("changeNotifications", true)])])]

/-- The answer to the first request. -/
def welcome (id : RequestId) : Message :=
  .result id (.obj [("capabilities", capabilities)])

/-- Before the first request other requests are refused, and notifications do not count. -/
def start : Message → List Message × Session
  | .request r =>
    if r.method == "initialize" then ([welcome r.id], greeted r.params)
    else ([.failure r.id (.notInitialized r)], starting)
  | .notification n => ([], if n.method == "exit" then ended .bad else starting)
  | _ => ([], ended .bad)

/-- A session goes on with a server, unless an analysis broke off. -/
def goesOn (s : Server) : Session :=
  if s.brokeOff then ended .brokenOff else running s

/-- Refreshes the server after some messages. -/
def refreshed (now : Nat) (sent : List Message) (s : Server) : List Message × Session :=
  if s.brokeOff then (sent, goesOn s)
  else
    let (more, s) := s.poll now
    (sent ++ more, goesOn s)

variable {m : Type → Type} [Monad m] [MonadDisk m]

/-- The session once the editor is ready. -/
def run (params : Json) : m (List Message × Session) := do
  match Greeting.read? params with
  | none => return ([], ended .bad)
  | some greeting =>
    let (sent, s) ← ({} : Server).addWorkspaces greeting.roots
    return (sent, goesOn s)

/-- Handles a message of a running session. -/
def handle (s : Server) (now : Nat) : Message → m (List Message × Session)
  | .request r =>
    if r.method == "shutdown" then return ([.result r.id .null], stopping)
    else
      let (sent, s) := s.respond r
      return refreshed now sent s
  | .notification n => do
    match Event.ofNotification? n with
    | none => return refreshed now [] s
    | some e =>
      let (sent, s) ← s.handle now e
      return refreshed now sent s
  | _ => return refreshed now [] s

/-- Handles a message. -/
def receive (session : Session) (now : Nat) (message : Message) : m (List Message × Session) :=
  match session with
  | starting => return start message
  | greeted params =>
    if message.isNotification "initialized" then run params else return ([], ended .bad)
  | running s => handle s now message
  | stopping => return ([], ended (if message.isNotification "exit" then .good else .bad))
  | ended ending => return ([], ended ending)

/-- Refreshes a session for which no message came in time. -/
def tick (session : Session) (now : Nat) : List Message × Session :=
  match session with
  | running s => refreshed now [] s
  | session => ([], session)

/-- When a session is to be refreshed even if no message comes. -/
def nextDeadline : Session → Option Nat
  | running s => s.workspaces.nextDeadline
  | _ => none

/-- Whether the session is over. -/
def isOver : Session → Bool
  | ended _ => true
  | _ => false

/-- How the session ends if no more messages come. -/
def ending : Session → Ending
  | running _ => .good
  | ended ending => ending
  | _ => .bad

/-- Handles messages until the session is over, or until the one to exit. A text that is no message
ends a session badly. -/
def converse (session : Session) (now : Nat) : List Json → m (List Message × Ending)
  | [] => return ([], session.ending)
  | j :: rest => do
    match Message.ofJson? j with
    | none => return ([], .bad)
    | some message =>
      let (sent, session) ← session.receive now message
      if session.isOver || message.isNotification "exit" then return (sent, session.ending)
      else
        let (more, ending) ← session.converse now rest
        return (sent ++ more, ending)

end Session

end TypedNotation
