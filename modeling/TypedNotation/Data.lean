import TypedNotation.BlockKind
import TypedNotation.Position
import TypedNotation.Value

/-!
# Data trees

A data tree is a value in which every part knows its place in the document, both as a range and as a
span of tokens. A block that is the payload of an enum value keeps its own place beside that of the
whole.

Forgetting the places gives the value: `Data.value`.
-/

namespace TypedNotation

/-- What is inside a block whose parts have type `α`. -/
inductive Contents (α : Type) where
  /-- The properties that have a value, and the place of the first writing of every key. Keys that
  lack a value are among the key ranges only. -/
  | dict (entries : List (String × α)) (keyRanges : List (String × Range))
  | array (items : List α)
  | tuple (items : List α)

/-- A block whose parts have type `α`. -/
structure Block (α : Type) where
  contents : Contents α
  /-- From the opening bracket through the closing one. -/
  range : Range
  tokens : TokenRange

/-- A value whose parts know their places. -/
inductive Data where
  | primitive (scalar : Scalar) (range : Range) (tokens : TokenRange)
  | block (block : Block Data)
  | enum (tag : String) (tagRange : Range) (payload : Option (Block Data)) (range : Range)
      (tokens : TokenRange)

/-- How a part is reached from the whole. -/
inductive Step where
  | key (name : String)
  | arrayElement (index : Nat)
  | tupleElement (index : Nat)
  | tag (name : String)
  deriving DecidableEq, Inhabited

namespace Contents

/-- The kind of the block. -/
def kind {α : Type} : Contents α → BlockKind
  | dict _ _ => .dict
  | array _ => .array
  | tuple _ => .tuple

/-- The parts in order. -/
def children {α : Type} : Contents α → List α
  | dict entries _ => entries.map (·.2)
  | array items | tuple items => items

/-- The parts in order, each with the step that reaches it. -/
def steps {α : Type} : Contents α → List (Step × α)
  | dict entries _ => entries.map fun (k, v) => (.key k, v)
  | array items => items.mapIdx fun i v => (.arrayElement i, v)
  | tuple items => items.mapIdx fun i v => (.tupleElement i, v)

end Contents

namespace Data

/-- The place of a data tree in the document. -/
def range : Data → Range
  | primitive _ r _ => r
  | block b => b.range
  | enum _ _ _ r _ => r

/-- The tokens of a data tree. -/
def tokens : Data → TokenRange
  | primitive _ _ t => t
  | block b => b.tokens
  | enum _ _ _ _ t => t

/-- What a data tree is, in messages. -/
def describe : Data → String
  | primitive s _ _ => s.primitive.name
  | block b => b.contents.kind.name
  | enum tag _ _ _ _ => "enum value #" ++ tag

/-- The block of a data tree: the tree itself or the payload of an enum value. -/
def innerBlock? : Data → Option (Block Data)
  | block b => some b
  | enum _ _ payload _ _ => payload
  | primitive .. => none

mutual

/-- The value that a data tree stands for. -/
def value : Data → Value
  | primitive s _ _ => .scalar s
  | block ⟨contents, _, _⟩ => contentsValue contents
  | enum tag _ none _ _ => .enum tag none
  | enum tag _ (some ⟨contents, _, _⟩) _ _ => .enum tag (some (contentsValue contents))

/-- The value of a block. -/
def contentsValue : Contents Data → Value
  | .dict entries _ => .dict (entryValues entries)
  | .array items => .array (itemValues items)
  | .tuple items => .tuple (itemValues items)

/-- The values of properties. -/
def entryValues : List (String × Data) → List (String × Value)
  | [] => []
  | (k, d) :: rest => (k, d.value) :: entryValues rest

/-- The values of elements. -/
def itemValues : List Data → List Value
  | [] => []
  | d :: rest => d.value :: itemValues rest

end

end Data

end TypedNotation
