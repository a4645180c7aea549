import TypedNotation.Check
import TypedNotation.Declaration
import TypedNotation.Document
import TypedNotation.DocumentName
import TypedNotation.TypeSpec.OfValue

/-!
# The index of declared types

The index maps every declared name to its type, or to the reason why it has none: the name is
declared more than once, or its declaration is no type, or it leads to nothing but other names.

All names are collected before any declaration is read, because a declaration may refer to exactly
the names that are declared, wherever they are.
-/

namespace TypedNotation

/-- The declared names, in the order of their first declarations. -/
structure TypeIndex where
  entries : List (String × Except ResolutionIssue TypeSpec) := []

namespace TypeIndex

/-- The declared names. -/
def names (x : TypeIndex) : List String :=
  x.entries.map (·.1)

/-- The lookup of declared names. -/
def resolver (x : TypeIndex) : Resolver := fun name =>
  match x.entries.lookup name with
  | some entry => entry
  | none => .error (.couldNotFind name)

/-- The lookup inside the type of declarations. -/
def declarationResolver (x : TypeIndex) : Resolver :=
  Declaration.resolver x.names

/-- The type that the text of a declaration describes when some names are declared. -/
def typeOfText? (declared : List String) (text : String) : Option TypeSpec :=
  match (Document.parse text).data with
  | some data =>
    if (data.check (Declaration.resolver declared) Declaration.root).ok then
      TypeSpec.ofValue? data.value
    else none
  | none => none

/-- The first declaration of every name. -/
def firsts : List (String × String) → List (String × String)
  | [] => []
  | (name, text) :: rest => (name, text) :: (firsts rest).filter (·.1 != name)

/-- Whether a name is declared more than once. -/
def isConflicting (declarations : List (String × String)) (name : String) : Bool :=
  1 < declarations.countP (·.1 == name)

/-- The entries as the declarations give them, each on its own. -/
def collect (declarations : List (String × String)) : TypeIndex :=
  let bodies := firsts declarations
  let declared := bodies.map (·.1)
  ⟨bodies.map fun (name, text) =>
    (name,
      if isConflicting declarations name then .error (.conflictingDeclarations name)
      else
        match typeOfText? declared text with
        | some spec => .ok spec
        | none => .error (.defectiveDeclaration name))⟩

/-- Whether an entry is a reference that leads to no type because of a defect. -/
def isLooping (x : TypeIndex) (name : String) : Except ResolutionIssue TypeSpec → Bool
  | .ok (.ref _) =>
    match (TypeSpec.ref name).resolve x.resolver with
    | .error (.defectiveDeclaration _) => true
    | _ => false
  | _ => false

/-- The index with the references marked that lead to no type. -/
def markLoops (x : TypeIndex) : TypeIndex :=
  ⟨x.entries.map fun (name, entry) =>
    (name, if x.isLooping name entry then .error (.defectiveDeclaration name) else entry)⟩

/-- The index of some declarations, each a name with a text. -/
def build (declarations : List (String × String)) : TypeIndex :=
  (collect declarations).markLoops

/-- The type of a data document by its file name. The answer is a reference, so that it shows which
declared type the document has. -/
def typeOfFile (x : TypeIndex) (fileName : String) : Except ResolutionIssue TypeSpec :=
  match DocumentName.dataType? fileName with
  | none => .error (.referenceInvalid fileName)
  | some name =>
    match (TypeSpec.ref name).resolve x.resolver with
    | .ok _ => .ok (.ref name)
    | .error issue => .error issue

end TypeIndex

end TypedNotation
