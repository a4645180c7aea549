import TypedNotation.CommandLine.Run
import TypedNotation.Json.Reader

/-!
# The program

The command line on a real disk and real streams. All that is decided here is how to read and write;
what to do with it is decided elsewhere.
-/

namespace TypedNotation.Program

/-! ### The disk -/

/-- The refusal that an error of the system stands for. The system gives the number of an error with
either sign. -/
def diskError : IO.Error → DiskError
  | .noFileOrDirectory .. => .notFound
  | .inappropriateType _ code _ =>
    if code = 21 || code = 0 - 21 then .isDirectory else .notDirectory
  | e => .other (toString e)

/-- Runs an action and keeps its error. -/
def attempt {α : Type} (act : IO α) : IO (Except DiskError α) := do
  match ← act.toBaseIO with
  | .ok a => return .ok a
  | .error e => return .error (diskError e)

/-- The files below a directory. A directory inside it that cannot be read is passed over. -/
partial def filesBelow (enters : String →
  Bool) (dir : Path) : IO (Except DiskError (List Path)) := do
  match ← attempt do (← (← IO.currentDir).join dir.text |>.readDir) |>.mapM fun e => do
      return (e.fileName, ← e.path.isDir) with
  | .error e => return .error e
  | .ok entries =>
    let mut found := #[]
    for (name, isDir) in entries do
      let path := dir.join ⟨name⟩
      if !isDir then found := found.push path
      else if enters name then
        match ← filesBelow enters path with
        | .ok more => found := found ++ more
        | .error _ => pure ()
    return .ok found.toList

instance : MonadDisk IO where
  readBytes p := attempt do return (← IO.FS.readBinFile p.text).toList.map (·.toNat)
  filesBelow p enters :=
    if p.text.isEmpty then return .error .notFound else filesBelow enters p
  isThere p := do (← IO.currentDir).join p.text |>.pathExists
  writeText p text := attempt (IO.FS.writeFile p.text text)

/-! ### Sessions over the standard streams -/

/-- Writes a message with its length in front. -/
def writeMessage (out : IO.FS.Stream) (message : Message) : IO Unit := do
  let body := message.toJson.compact
  out.putStr s!"Content-Length: {body.utf8ByteSize}\r\n\r\n{body}"
  out.flush

/-- Reads as many bytes as asked for, unless the stream ends before. -/
partial def readExactly (stream : IO.FS.Stream) (count : Nat) (before : ByteArray) :
    IO ByteArray := do
  if count ≤ before.size then return before
  else
    let more ← stream.read (count - before.size).toUSize
    if more.isEmpty then return before else readExactly stream count (before ++ more)

/-- Reads the lines in front of a message and gives its length; nothing at the end of the stream. -/
partial def readLength? (stream : IO.FS.Stream) (length : Option Nat) : IO (Option Nat) := do
  let line ← stream.getLine
  if line.isEmpty then return none
  else
    let fields := line.trimAscii.toString.splitOn ": "
    match fields with
    | [""] => return length
    | [name, value] =>
      if name.toLower == "content-length" then readLength? stream value.toNat?
      else readLength? stream length
    | _ => readLength? stream length

/-- What comes in on a stream. -/
inductive Incoming where
  | message (message : Message)
  | garbage
  | nothing

/-- Reads a message. -/
def readMessage (stream : IO.FS.Stream) : IO Incoming := do
  match ← readLength? stream none with
  | none => return .nothing
  | some length =>
    let bytes ← readExactly stream length .empty
    match (String.fromUTF8? bytes).bind (Json.readWithin? Message.maxDepth) |>.bind
      Message.ofJson? with
    | some message => return .message message
    | none => return .garbage

/-- Waits for something to come in, but not beyond a time. -/
partial def await (task : Task (Except IO.Error Incoming)) (deadline : Option Nat) :
    IO (Option Incoming) := do
  if ← IO.hasFinished task then
    match task.get with
    | .ok incoming => return some incoming
    | .error _ => return some .garbage
  else if deadline.any (· ≤ (← IO.monoMsNow)) then return none
  else
    IO.sleep 5
    await task deadline

/-- Carries a session on until it is over or nothing more comes in, and tells how it ended. -/
partial def converse (input output : IO.FS.Stream) (task : Task (Except IO.Error Incoming))
    (session : Session) : IO Session.Ending := do
  match ← await task session.nextDeadline with
  | none =>
    let (sent, session) := session.tick (← IO.monoMsNow)
    sent.forM (writeMessage output)
    if session.isOver then return session.ending
    else converse input output task session
  | some .nothing => return session.ending
  | some .garbage => return .bad
  | some (.message message) =>
    let (sent, session) ← session.receive (← IO.monoMsNow) message
    sent.forM (writeMessage output)
    if session.isOver || message.isNotification "exit" then return session.ending
    else converse input output (← IO.asTask (readMessage input)) session

/-- Serves an editor over the standard streams. -/
def serve : IO Outcome := do
  let input ← IO.getStdin
  let output ← IO.getStdout
  return .ofSession (← converse input output (← IO.asTask (readMessage input)) .starting)

/-- How the program is used. -/
def usage : String :=
  joinLines
    ["Usage: thrd [--output text|json] [--quiet] [--root DIR] COMMAND",
     "",
     "Commands:",
     "  check [FILE...]     check documents against their declared types",
     "  fix FILE [--write]  apply every automatic fix to a document",
     "  dump FILE           print the value of a document as JSON",
     "  chunks FILE         print the chunks of a document",
     "  tokens FILE         print the tokens of a document",
     "  lsp                 serve an editor over the standard streams"]

/-- Does what the arguments ask for. -/
def run (args : List String) : IO Outcome := do
  match Arguments.read args with
  | .help => return { out := usage }
  | .version => return .ofVersion
  | .misuse => return { exitCode := 2, err := usage }
  | .run _ .serve => serve
  | .run options command => command.run options

end TypedNotation.Program

/-- The program. -/
def main (args : List String) : IO UInt32 := do
  let outcome ← TypedNotation.Program.run args
  (← IO.getStdout).putStr outcome.out
  (← IO.getStderr).putStr outcome.err
  return outcome.exitCode.toUInt32
