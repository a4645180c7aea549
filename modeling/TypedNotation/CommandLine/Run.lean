import TypedNotation.CommandLine.Arguments
import TypedNotation.CommandLine.Listing
import TypedNotation.Editor.Session

/-!
# Commands

A command reads from a disk and leaves an outcome: an exit code and what it wrote to the two output
streams. Once something cannot be read, or an analysis breaks off, the command stops, with what it
had written by then.
-/

namespace TypedNotation

/-- What a command leaves behind. -/
structure Outcome where
  exitCode : Nat := 0
  out : String := ""
  err : String := ""
  deriving DecidableEq, Inhabited

namespace Outcome

/-- The outcome of a run in which an analysis broke off, after what was written. -/
def brokenOff (out : String) : Outcome :=
  { exitCode := 101, out, err := "attempt to multiply with overflow\n" }

/-- The outcome of a session with an editor. -/
def ofSession : Session.Ending → Outcome
  | .good => {}
  | .bad => { exitCode := 1, err := "LSP server error: the session broke off\n" }
  | .brokenOff => brokenOff ""

/-- The outcome of a call for the version. -/
def ofVersion : Outcome :=
  { out := "thrd 0.1.0\n" }

end Outcome

/-- Lines of text, each with its end. -/
def joinLines (lines : List String) : String :=
  String.join (lines.map (· ++ "\n"))

namespace CommonOptions

/-- An error message in the chosen format. -/
def errorText (o : CommonOptions) (message : String) : String :=
  if o.quiet then ""
  else
    match o.output with
    | .text => message ++ "\n"
    | .json => (Json.obj [("error", message)]).compact ++ "\n"

/-- The outcome of a command that stops with an error, after what it has written. -/
def failure (o : CommonOptions) (message : String) (out : String) : Outcome :=
  { exitCode := 1, out, err := o.errorText message }

/-- The outcome of a command that cannot read a file. -/
def unreadable (o : CommonOptions) (file : Path) (e : DiskError) (out : String) : Outcome :=
  o.failure s!"error reading file '{file.text}': {e.message}" out

end CommonOptions

/-- The settings and types of a root. -/
structure Project where
  settings : Settings
  index : TypeIndex

namespace Project

/-- What is found in a text under a name. -/
def analysis (p : Project) (file : Path) (text : String) : Analysis :=
  Analysis.run file.text text p.index p.settings

end Project

namespace Command

/-- The numbers of errors and warnings among some findings. -/
def tally (found : List Diagnostic) : Nat × Nat :=
  (found.countP (·.severity == .error), found.countP (·.severity == .warning))

/-- The findings of a file on lines of their own. -/
def lines : Path × Analysis → List String
  | (file, a) => a.diagnostics.map (·.listing file.text)

/-- The findings of a file as JSON. -/
def report : Path × Analysis → Json
  | (file, a) => .obj [("diagnostics", .arr (a.diagnostics.map (·.sorted))), ("file", file.text)]

/-- What a check of some files prints before its last line. -/
def checkLines (o : CommonOptions) (checked : List (Path × Analysis)) : String :=
  match o.output with
  | .text => joinLines (checked.flatMap lines)
  | .json => ""

/-- The outcome of a check in which every file could be read. -/
def checkOutcome (o : CommonOptions) (checked : List (Path × Analysis)) : Outcome :=
  let (errors, warnings) := tally (checked.flatMap (·.2.diagnostics))
  let last := match o.output with
    | .text =>
      if o.quiet then ""
      else s!"{checked.length} file(s) checked: {errors} error(s), {warnings} warning(s)\n"
    | .json => (Json.arr (checked.map report)).pretty ++ "\n"
  { exitCode := if errors = 0 then 0 else 1, out := checkLines o checked ++ last }

/-- The outcome of printing the value of a document. -/
def dumpOutcome (o : CommonOptions) (file : Path) (text : String) : Outcome :=
  let document := Document.parse text
  match document.data with
  | some data => { out := data.value.toJson.pretty ++ "\n" }
  | none =>
    let found := document.report.diagnostics.map (·.listing file.text)
    { exitCode := 1, err := if o.quiet then "" else joinLines found }

/-- The outcome of printing the chunks of a document. -/
def chunksOutcome (o : CommonOptions) (text : String) : Outcome :=
  let chunks := (Chunk.preorderList 0 (Document.parse text).chunks).map (·.2)
  match o.output with
  | .text => { out := joinLines (chunks.map (·.row)) }
  | .json => { out := (Json.arr (chunks.map (·.sorted))).pretty ++ "\n" }

/-- The outcome of printing the tokens of a document. -/
def tokensOutcome (o : CommonOptions) (text : String) : Outcome :=
  let tokens := Document.tokensOf text
  match o.output with
  | .text => { out := joinLines (tokens.map (·.row)) }
  | .json => { out := (Json.arr (tokens.map (·.toJson))).pretty ++ "\n" }

/-- What a command says once a file is mended. -/
def fixedText (o : CommonOptions) (file : Path) (count : Nat) : String :=
  if o.quiet then ""
  else
    match o.output with
    | .text => s!"fixed {count} issue(s) in {file.text}\n"
    | .json => (Json.obj [("file", file.text), ("fixed", count)]).compact ++ "\n"

section Disk

variable {m : Type → Type} [Monad m] [MonadDisk m]

/-- Goes on with the settings and types of the root, if they can be loaded. -/
def withProject (o : CommonOptions) (act : Project → m Outcome) : m Outcome := do
  match ← Disk.loadSettings o.root with
  | .error e => return o.failure s!"error: {e.message}" ""
  | .ok settings =>
    match ← Disk.loadIndex o.root with
    | .error e => return o.failure s!"error: {e.message}" ""
    | .ok index => act ⟨settings, index⟩

/-- Goes on with the text of a file, if it can be read. -/
def withText (o : CommonOptions) (file : Path) (act : String → m Outcome) : m Outcome := do
  match ← Disk.readText file with
  | .error e => return o.unreadable file e ""
  | .ok text => act text

/-- Checks files after those already checked. -/
def checkFiles (o : CommonOptions) (project : Project) (checked : List (Path × Analysis)) :
    List Path → m Outcome
  | [] => return checkOutcome o checked
  | file :: rest => do
    match ← Disk.readText file with
    | .error e => return o.unreadable file e (checkLines o checked)
    | .ok text =>
      let a := project.analysis file text
      if a.brokeOff then return .brokenOff (checkLines o checked)
      else checkFiles o project (checked ++ [(file, a)]) rest

/-- Checks the given files, or all below the root. -/
def runCheck (o : CommonOptions) (files : List Path) : m Outcome :=
  withProject o fun project => do
    if files.isEmpty then
      match ← Disk.listSources o.root with
      | .error e => return o.failure s!"error listing '{o.root.text}': {e.message}" ""
      | .ok found => checkFiles o project [] found
    else checkFiles o project [] files

/-- Mends a file and prints the result, or writes it back. -/
def runFix (o : CommonOptions) (file : Path) (write : Bool) : m Outcome :=
  withProject o fun project => withText o file fun text => do
    let a := project.analysis file text
    let edits := a.fixAll
    let fixed := Edit.applyAll text edits
    let done : Outcome := { out := fixedText o file edits.length }
    if a.brokeOff then return .brokenOff ""
    else if !write then return { out := fixed }
    else if fixed == text then return done
    else
      match ← MonadDisk.writeText file fixed with
      | .error e => return o.failure s!"error writing file '{file.text}': {e.message}" ""
      | .ok () => return done

/-- Runs a command. A session with an editor is not run here, as it has no end of its own. -/
def run (o : CommonOptions) : Command → m Outcome
  | .check files => runCheck o files
  | .fix file write => runFix o file write
  | .dump file => withText o file fun text => return dumpOutcome o file text
  | .chunks file => withText o file fun text => return chunksOutcome o text
  | .tokens file => withText o file fun text => return tokensOutcome o text
  | .serve => return {}

end Disk

end Command

end TypedNotation
