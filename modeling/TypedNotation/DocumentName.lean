import TypedNotation.Path
import TypedNotation.Text.Word

/-!
# Names of documents

The name of a document says what it is. A data document ends in `.thrd`, and the word just before
that is the name of its type: `config.Server.thrd` and `Server.thrd` are both of type `Server`. A
declaration ends in `.thrdtype`, and all before that is the name it declares, provided it is a word.
Every other document has no type.
-/

namespace TypedNotation

/-- What a document is. -/
inductive DocumentRole where
  /-- Data, checked against the type that its name tells. -/
  | data
  /-- A type declaration, checked against the type of declarations. -/
  | declaration
  /-- Anything else. -/
  | other
  deriving DecidableEq, Inhabited

namespace DocumentRole

/-- The name of the role. -/
def name : DocumentRole → String
  | data => "data"
  | declaration => "declaration"
  | other => "other"

/-- The extension of data documents. -/
def dataExtension : String :=
  "thrd"

/-- The extension of declarations. -/
def declarationExtension : String :=
  "thrdtype"

/-- The role of the document at a path. -/
def ofPath (p : Path) : DocumentRole :=
  match p.extension? with
  | some e =>
    if e = dataExtension then data else if e = declarationExtension then declaration else other
  | none => other

end DocumentRole

namespace DocumentName

/-- What follows the last separator of a path, be it a slash or a backslash. -/
def base (name : String) : String :=
  String.ofList (name.toList.reverse.takeWhile fun c => c != '/' && c != '\\').reverse

/-- The type of a data document: the word in front of the extension. -/
def dataType? (name : String) : Option String :=
  let ending := ('.' :: DocumentRole.dataExtension.toList)
  let cs := name.toList
  if ending.isSuffixOf cs then
    let word := Text.trailingWord (cs.take (cs.length - ending.length))
    if word.isEmpty then none else some (String.ofList word)
  else none

/-- The name that the declaration at a path declares. -/
def declared? (p : Path) : Option String :=
  if DocumentRole.ofPath p = .declaration then
    p.stem?.filter fun stem => Text.isWord stem.toList
  else none

/-- Whether the analysis looks after the document at a path. -/
def isTracked (p : Path) : Bool :=
  DocumentRole.ofPath p != .other

end DocumentName

end TypedNotation
