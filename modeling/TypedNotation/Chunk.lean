import TypedNotation.Double.Notation
import TypedNotation.Position
import TypedNotation.BlockKind
import TypedNotation.Text.Quoted
import TypedNotation.Value

/-!
# Chunks

Chunks are the tokens of a document after brackets have been matched, strings put together and
literals read: values, keys with their colons, separators, blocks of chunks, and enum values whose
payload is a block. Whether the chunks of a block follow each other in a sensible order is not
decided yet.

A newline between two items stands for a comma; as a separator it is called *weak*.
-/

namespace TypedNotation

/-- A pair of brackets and what is between them. -/
structure Bracketed (α : Type) where
  kind : BlockKind
  children : List α
  /-- From the opening bracket through the closing one. -/
  range : Range
  tokens : TokenRange

/-- A matched part of a document. -/
inductive Chunk where
  | block (block : Bracketed Chunk)
  | enum (tag : String) (tagRange : Range) (payload : Option (Bracketed Chunk)) (range : Range)
      (tokens : TokenRange)
  /-- A property key together with its colon. -/
  | key (name : String) (nameRange : Range) (range : Range) (tokens : TokenRange)
  | value (scalar : Scalar) (range : Range) (tokens : TokenRange)
  | separator (weak : Bool) (range : Range) (tokens : TokenRange)

namespace Chunk

/-- The place of a chunk in the document. -/
def range : Chunk → Range
  | block b => b.range
  | enum _ _ _ r _ | key _ _ r _ | value _ r _ | separator _ r _ => r

/-- The tokens of a chunk. -/
def tokens : Chunk → TokenRange
  | block b => b.tokens
  | enum _ _ _ _ t | key _ _ _ t | value _ _ t | separator _ _ t => t

/-- Whether a chunk stands for a value. -/
def isValue : Chunk → Bool
  | block _ | enum .. | value .. => true
  | key .. | separator .. => false

/-- The chunks directly inside a chunk. -/
def children : Chunk → List Chunk
  | block b | enum _ _ (some b) _ _ => b.children
  | _ => []

mutual

/-- A chunk and every chunk inside it, with their depths, parents before children. -/
def preorder (depth : Nat) : Chunk → List (Nat × Chunk)
  | block b => (depth, block b) :: preorderBlock (depth + 1) b
  | enum t r (some b) s n => (depth, enum t r (some b) s n) :: preorderBlock (depth + 1) b
  | enum t r none s n => [(depth, enum t r none s n)]
  | key a r s n => [(depth, key a r s n)]
  | value v r n => [(depth, value v r n)]
  | separator w r n => [(depth, separator w r n)]

/-- The chunks of a block, with their depths. -/
def preorderBlock (depth : Nat) : Bracketed Chunk → List (Nat × Chunk)
  | ⟨_, children, _, _⟩ => preorderList depth children

/-- The chunks of a list and all inside them, with their depths. -/
def preorderList (depth : Nat) : List Chunk → List (Nat × Chunk)
  | [] => []
  | c :: cs => c.preorder depth ++ preorderList depth cs

end

/-! ### Listing -/

/-- What a chunk is, in one line. -/
def describe : Chunk → String
  | block b => s!"block [{b.kind.name}] - {b.children.length} children"
  | enum tag _ (some b) _ _ => s!"enum {tag}<{b.kind.name}>"
  | enum tag _ none _ _ => s!"enum {tag}<unit>"
  | key name _ _ _ => "key " ++ Text.quoted name
  | value (.int v) _ _ => s!"value (int) {v.toInt}"
  | value (.float v) _ _ => "value (float) " ++ v.text .document
  | value (.boolean v) _ _ => s!"value (boolean) {v}"
  | value (.string v) _ _ => "value (string) " ++ Text.quoted v
  | separator true _ _ => "separator (weak)"
  | separator false _ _ => "separator"

/-- Where a chunk is and what it is. -/
def listing (c : Chunk) : String :=
  let a := c.range.start
  let b := c.range.stop
  s!"{a.line}:{a.character}-{b.line}:{b.character} " ++ c.describe

end Chunk

end TypedNotation
