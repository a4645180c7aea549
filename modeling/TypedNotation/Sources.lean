import TypedNotation.TypeIndex

/-!
# Sources

The texts of a workspace with their paths, in the order of the paths. The declarations among them
give the index of types.

`MemoryFiles` holds texts under paths without dots, as an editor without files would.
-/

namespace TypedNotation

/-- A text and its path. -/
abbrev Source := Path × String

namespace Source

/-- The declarations among some texts, by the names that they declare. -/
def declarations (sources : List Source) : List (String × String) :=
  sources.filterMap fun (p, text) => (DocumentName.declared? p).map (·, text)

/-- The types that some texts declare. -/
def typeIndex (sources : List Source) : TypeIndex :=
  .build (declarations sources)

end Source

/-- Texts under paths without dots. -/
structure MemoryFiles where
  files : PathMap String := []

namespace MemoryFiles

/-- Puts a text at a path. -/
def insert (m : MemoryFiles) (p : Path) (text : String) : MemoryFiles :=
  ⟨m.files.insert p.normalize text⟩

/-- Texts with their paths; of two texts for one path the last one counts. -/
def ofList (files : List Source) : MemoryFiles :=
  files.foldl (fun m (p, text) => m.insert p text) {}

/-- The text at a path, or a message that there is none. -/
def read (m : MemoryFiles) (p : Path) : Except String String :=
  match m.files.find? p.normalize with
  | some text => .ok text
  | none => .error ("file not found in memory: " ++ p.normalize.text)

/-- The texts at or below a root that the analysis looks after. -/
def sources (m : MemoryFiles) (root : Path) : List Source :=
  m.files.filter fun (p, _) => p.isUnder root.normalize && DocumentName.isTracked p

end MemoryFiles

end TypedNotation
