import TypedNotation.Text.Lines

/-!
# Paths

A path is a text in which slashes separate names. Two paths are the same place if their *components*
agree: repeated and trailing slashes do not count, nor does a lone dot except at the very start of a
relative path. Nothing here looks at a disk, so a double dot is a component of its own.

Paths are ordered by their components, the root first and names by their characters.
-/

namespace TypedNotation

/-- A part of a path. -/
inductive Component where
  | root
  | current
  | parent
  | name (name : String)
  deriving DecidableEq, Inhabited

namespace Component

/-- The text of a component. -/
def text : Component → String
  | root => "/"
  | current => "."
  | parent => ".."
  | name n => n

/-- The place of a component among components of other kinds. -/
def rank : Component → Nat
  | root => 0
  | current => 1
  | parent => 2
  | name _ => 3

/-- The order of components. -/
def compare : Component → Component → Ordering
  | name a, name b => Ord.compare a b
  | a, b => Ord.compare a.rank b.rank

end Component

/-- A place in a tree of files. -/
structure Path where
  text : String
  deriving Inhabited

namespace Path

/-- The component of a piece between slashes; an empty piece or a lone dot is none. -/
def component? (piece : List Char) : Option Component :=
  if piece = [] || piece = ['.'] then none
  else if piece = ['.', '.'] then some .parent
  else some (.name (String.ofList piece))

/-- Whether a path starts at the root. -/
def isAbsolute (p : Path) : Bool :=
  p.text.toList.head? == some '/'

/-- The parts of a path. -/
def components (p : Path) : List Component :=
  let pieces := Text.pieces '/' p.text.toList
  let start :=
    if p.isAbsolute then [.root] else if pieces.head? = some ['.'] then [.current] else []
  start ++ pieces.filterMap component?

/-- Whether two paths are the same place. -/
def same (p q : Path) : Bool :=
  p.components == q.components

/-- The order of lists of components. -/
def compareComponents : List Component → List Component → Ordering
  | [], [] => .eq
  | [], _ :: _ => .lt
  | _ :: _, [] => .gt
  | a :: as, b :: bs => (a.compare b).then (compareComponents as bs)

/-- The order of paths. -/
def compare (p q : Path) : Ordering :=
  compareComponents p.components q.components

/-- Whether a path lies at or below another. -/
def isUnder (p root : Path) : Bool :=
  root.components.isPrefixOf p.components

/-- A path continued by another; an absolute one takes its place. -/
def join (p q : Path) : Path :=
  if q.isAbsolute || p.text.isEmpty then q
  else if p.text.toList.getLast? = some '/' then ⟨p.text ++ q.text⟩
  else ⟨p.text ++ "/" ++ q.text⟩

/-- The path of some components. -/
def ofComponents (components : List Component) : Path :=
  components.foldl (fun p c => p.join ⟨c.text⟩) ⟨""⟩

/-- The path without dots: a double dot takes away the component before it. -/
def normalize (p : Path) : Path :=
  let step := fun (kept : List Component) (c : Component) =>
    match c with
    | .current => kept
    | .parent => kept.drop 1
    | c => c :: kept
  ofComponents (p.components.foldl step []).reverse

/-- Whether a piece at an index is a component: an empty one or a lone dot is none, except for a dot
at the very start. -/
def isReal : List Char × Nat → Bool
  | (piece, index) => (component? piece).isSome || (piece == ['.'] && index == 0)

/-- The path without its last component; the root has none to lose. -/
def parent? (p : Path) : Option Path :=
  let pieces := Text.pieces '/' p.text.toList
  match ((pieces.zipIdx.filter isReal).map (·.2)).reverse with
  | [] => none
  | [_] => some ⟨if p.isAbsolute then "/" else ""⟩
  | _ :: last :: _ =>
    some ⟨"/".intercalate ((pieces.take (last + 1)).map String.ofList)⟩

/-- The path and all that contain it, innermost first, cut off after so many. -/
def ancestors (p : Path) : Nat → List Path
  | 0 => [p]
  | n + 1 =>
    match p.parent? with
    | some q => p :: q.ancestors n
    | none => [p]

/-- The path and all that contain it, innermost first. -/
def selfAndAncestors (p : Path) : List Path :=
  p.ancestors p.text.length

/-- The last component, if it is a name. -/
def fileName? (p : Path) : Option String :=
  match p.components.getLast? with
  | some (.name n) => some n
  | _ => none

/-- A file name cut at its last dot. A dot at the very start does not count. -/
def splitName (name : List Char) : List Char × Option (List Char) :=
  let after := (name.reverse.takeWhile (· != '.')).reverse
  let before := name.take (name.length - after.length - 1)
  if after.length = name.length || before.isEmpty then (name, none) else (before, some after)

/-- What stands behind the last dot of the file name. -/
def extension? (p : Path) : Option String :=
  p.fileName?.bind fun n => (splitName n.toList).2.map String.ofList

/-- The file name without its extension. -/
def stem? (p : Path) : Option String :=
  p.fileName?.map fun n => String.ofList (splitName n.toList).1

end Path

/-- Values at places, in the order of the places. -/
abbrev PathMap (α : Type) := List (Path × α)

namespace PathMap

/-- The value at a place. -/
def find? {α : Type} (m : PathMap α) (p : Path) : Option α :=
  (List.find? (fun (q, _) => q.same p) m).map (·.2)

/-- Whether a place has a value. -/
def contains {α : Type} (m : PathMap α) (p : Path) : Bool :=
  (m.find? p).isSome

/-- Puts a value at a place. A place that has a value keeps the text of its path. -/
def insert {α : Type} (m : PathMap α) (p : Path) (value : α) : PathMap α :=
  match m with
  | [] => [(p, value)]
  | (q, old) :: rest =>
    match p.compare q with
    | .lt => (p, value) :: (q, old) :: rest
    | .eq => (q, value) :: rest
    | .gt => (q, old) :: insert rest p value

/-- Takes the value of a place away. -/
def erase {α : Type} (m : PathMap α) (p : Path) : PathMap α :=
  m.filter fun (q, _) => !q.same p

/-- The places that have a value. -/
def paths {α : Type} (m : PathMap α) : List Path :=
  m.map (·.1)

/-- The values at some places; of two values for one place the last one counts. -/
def ofList {α : Type} (entries : List (Path × α)) : PathMap α :=
  entries.foldl (fun m (p, v) => m.insert p v) []

end PathMap

end TypedNotation
