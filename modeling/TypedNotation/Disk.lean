import TypedNotation.Settings.OfJson
import TypedNotation.Sources
import TypedNotation.Text.Utf8

/-!
# Disks

What the program needs of a disk: to read and write files, to list the files below a directory, and
to ask whether something is there. Any monad that offers these can run the program, a disk in memory
as well as a real one.

On top of that stand the sources of a project, its settings, and the errors that loading can give.
-/

namespace TypedNotation

/-- Why a disk refuses. -/
inductive DiskError where
  | notFound
  | isDirectory
  | notDirectory
  /-- The bytes of a file are no text. -/
  | invalidText
  | other (message : String)
  deriving DecidableEq, Inhabited

namespace DiskError

/-- The refusal in words. -/
def message : DiskError → String
  | notFound => "No such file or directory (os error 2)"
  | isDirectory => "Is a directory (os error 21)"
  | notDirectory => "Not a directory (os error 20)"
  | invalidText => "stream did not contain valid UTF-8"
  | other message => message

end DiskError

/-- A monad with a disk. -/
class MonadDisk (m : Type → Type) where
  /-- The bytes of a file. -/
  readBytes : Path → m (Except DiskError (List Nat))
  /-- The files below a directory, in any order. A directory inside it is entered if its name passes
  the test. -/
  filesBelow : Path → (String → Bool) → m (Except DiskError (List Path))
  /-- Whether there is a file or a directory. -/
  isThere : Path → m Bool
  /-- Writes a file. -/
  writeText : Path → String → m (Except DiskError Unit)

/-- Why a project cannot be loaded. -/
inductive LoadError where
  | disk (path : Path) (error : DiskError)
  /-- The settings file does not hold settings. -/
  | settings (path : Path)

namespace LoadError

/-- The error in words. -/
def message : LoadError → String
  | disk path error => s!"failed to read {path.text}: {error.message}"
  | settings path => s!"invalid settings in {path.text}: no settings can be read from it"

end LoadError

namespace Disk

variable {m : Type → Type} [Monad m] [MonadDisk m]

/-- The text of a file. -/
def readText (p : Path) : m (Except DiskError String) := do
  match ← MonadDisk.readBytes p with
  | .error e => return .error e
  | .ok bytes =>
    match Utf8.strict? bytes with
    | some cs => return .ok (String.ofList cs)
    | none => return .error .invalidText

/-- Whether sources are looked for in a directory of a name. -/
def isEntered (name : String) : Bool :=
  name.toList.head? != some '.' && name != "target"

/-- The paths below a root that the analysis looks after, in order. -/
def listSources (root : Path) : m (Except DiskError (List Path)) := do
  match ← MonadDisk.filesBelow root isEntered with
  | .error e => return .error e
  | .ok files =>
    return .ok ((files.filter DocumentName.isTracked).mergeSort fun p q => (p.compare q).isLE)

/-- The texts at some paths; what cannot be read is left out. -/
def readSources : List Path → m (List Source)
  | [] => return []
  | p :: rest => do
    match ← readText p with
    | .ok text => return (p, text) :: (← readSources rest)
    | .error _ => readSources rest

/-- The sources below a root. -/
def loadSources (root : Path) : m (Except LoadError (List Source)) := do
  match ← listSources root with
  | .error e => return .error (.disk root e)
  | .ok paths => return .ok (← readSources paths)

/-- The types declared below a root. -/
def loadIndex (root : Path) : m (Except LoadError TypeIndex) := do
  match ← listSources root with
  | .error e => return .error (.disk root e)
  | .ok paths =>
    let declarations := paths.filter fun p => (DocumentName.declared? p).isSome
    return .ok (Source.typeIndex (← readSources declarations))

/-- The name of the settings file of a project. -/
def settingsFile : Path :=
  ⟨"thrd.toml"⟩

/-- The settings of the project at a root. Without a settings file they are the default. -/
def loadSettings (root : Path) : m (Except LoadError Settings) := do
  let path := root.join settingsFile
  match ← readText path with
  | .ok text =>
    match Settings.ofToml? text with
    | some settings => return .ok settings
    | none => return .error (.settings path)
  | .error .notFound => return .ok {}
  | .error e => return .error (.disk path e)

end Disk

end TypedNotation
