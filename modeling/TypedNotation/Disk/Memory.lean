import TypedNotation.Disk

/-!
# A disk in memory

A tree of files and directories with a current directory. A path is followed piece by piece: every
piece but the last must lead to a directory, and so must a path that ends in a slash.
-/

namespace TypedNotation

/-- A file or a directory. -/
inductive FileTree where
  | file (bytes : List Nat)
  | directory (entries : List (String × FileTree))
  deriving Inhabited

namespace FileTree

/-- The entry of a directory under a name. -/
def entry? (name : String) : FileTree → Option FileTree
  | directory entries => entries.lookup name
  | file _ => none

/-- The entries of a directory. -/
def entries : FileTree → List (String × FileTree)
  | directory entries => entries
  | file _ => []

/-- A file with some text. -/
def ofText (text : String) : FileTree :=
  file (Utf8.encode text.toList)

/-- Follows the pieces of a path from a directory, which comes with those that contain it, innermost
first. -/
def follow : List FileTree → List (List Char) → Except DiskError FileTree
  | [], _ => .error .notFound
  | here :: _, [] => .ok here
  | file _ :: _, _ :: _ => .error .notDirectory
  | here@(directory entries) :: outer, piece :: rest =>
    if piece = [] || piece = ['.'] then follow (here :: outer) rest
    else if piece = ['.', '.'] then follow (if outer.isEmpty then [here] else outer) rest
    else
      match entries.lookup (String.ofList piece) with
      | some next => follow (next :: here :: outer) rest
      | none => .error .notFound

/-- Puts a tree at a place, making the directories that are missing on the way. -/
def insert (node : FileTree) : List String → FileTree → FileTree
  | [], _ => node
  | name :: rest, tree =>
    let child := insert node rest ((tree.entry? name).getD (directory []))
    directory (Ordered.insert tree.entries name child)

/-- Takes the tree at a place away. -/
def erase : List String → FileTree → FileTree
  | [], tree => tree
  | [name], tree => directory (tree.entries.filter (·.1 != name))
  | name :: rest, tree =>
    match tree.entry? name with
    | some child => directory (Ordered.insert tree.entries name (erase rest child))
    | none => tree

/-- The files below the entries of a directory at a path. -/
def filesIn (enters : String → Bool) (path : Path) : List (String × FileTree) → List Path
  | [] => []
  | (name, file _) :: rest => path.join ⟨name⟩ :: filesIn enters path rest
  | (name, directory inner) :: rest =>
    (if enters name then filesIn enters (path.join ⟨name⟩) inner else []) ++
      filesIn enters path rest

end FileTree

/-- A tree of files with a current directory. -/
structure MemoryDisk where
  tree : FileTree := .directory []
  /-- The names on the way to the current directory. -/
  current : List String := []

namespace MemoryDisk

/-- The directories on the way along some names, innermost first. -/
def chain (tree : FileTree) (outer : List FileTree) : List String → List FileTree
  | [] => tree :: outer
  | name :: rest => chain ((tree.entry? name).getD (.directory [])) (tree :: outer) rest

/-- What is at a path. -/
def find (d : MemoryDisk) (p : Path) : Except DiskError FileTree :=
  if p.text.isEmpty then .error .notFound
  else
    let start := if p.isAbsolute then [d.tree] else chain d.tree [] d.current
    FileTree.follow start (Text.pieces '/' p.text.toList)

/-- The names on the way to a path. -/
def names (d : MemoryDisk) (p : Path) : List String :=
  let step := fun (kept : List String) (c : Component) =>
    match c with
    | .root => []
    | .current => kept
    | .parent => kept.dropLast
    | .name n => kept ++ [n]
  p.components.foldl step d.current

/-- Puts a tree at a path. -/
def put (d : MemoryDisk) (p : Path) (node : FileTree) : MemoryDisk :=
  { d with tree := FileTree.insert node (d.names p) d.tree }

/-- Takes away what is at a path. -/
def remove (d : MemoryDisk) (p : Path) : MemoryDisk :=
  { d with tree := FileTree.erase (d.names p) d.tree }

/-- The bytes of a file. -/
def readBytes (d : MemoryDisk) (p : Path) : Except DiskError (List Nat) :=
  match d.find p with
  | .ok (.file bytes) => .ok bytes
  | .ok (.directory _) => .error .isDirectory
  | .error e => .error e

/-- The files below a directory. -/
def filesBelow (d : MemoryDisk) (p : Path) (enters : String → Bool) :
    Except DiskError (List Path) :=
  match d.find p with
  | .ok (.directory entries) => .ok (FileTree.filesIn enters p entries)
  | .ok (.file _) => .error .notDirectory
  | .error e => .error e

instance : MonadDisk (StateM MemoryDisk) where
  readBytes p := return (← get).readBytes p
  filesBelow p enters := return (← get).filesBelow p enters
  isThere p := return ((← get).find p).isOk
  writeText p text := do
    modify (·.put p (.ofText text))
    return .ok ()

end MemoryDisk

end TypedNotation
