import TypedNotation.Data
import TypedNotation.TypeSpec

/-!
# The block around a position

The innermost block whose inside contains a position, with its type. The walk goes down data and
type together; where the two disagree on the way, there is no answer. The inside of a block starts
behind the opening bracket and ends at the closing one.

`CursorPlace.ofBlock` says where among the items of a block a position is.
-/

namespace TypedNotation

/-- The answer to which block a position is in. -/
inductive Enclosing where
  /-- None. -/
  | outside
  /-- Data and type disagree on the way. -/
  | typeFailed
  | found (block : Block Data) (spec : BlockSpec)

namespace Enclosing

/-- The first answer, unless it is none. -/
def orElse (a b : Enclosing) : Enclosing :=
  match a with
  | outside => b
  | a => a

/-- The part of the document in which a block encloses positions. -/
def interior (range : Range) : Range :=
  range.contract 1 0

mutual

/-- The innermost block around a position. -/
def ofData (r : Resolver) (p : Position) : Data → TypeSpec → Enclosing
  | data, spec =>
    match spec.resolve r with
    | .error _ => typeFailed
    | .ok .missing => typeFailed
    | .ok resolved =>
      match data with
      | .primitive .. => outside
      | .block b =>
        if (interior b.range).contains p then
          match resolved with
          | .block spec => ofBlock r p b spec
          | _ => typeFailed
        else outside
      | .enum _ _ none _ _ => outside
      | .enum tag _ (some b) _ _ =>
        if (interior b.range).contains p then
          match resolved with
          | .enum variants =>
            match variants.lookup tag with
            | some (some spec) => ofBlock r p b spec
            | _ => typeFailed
          | _ => typeFailed
        else outside

/-- The innermost block around a position that is inside a block. -/
def ofBlock (r : Resolver) (p : Position) : Block Data → BlockSpec → Enclosing
  | ⟨contents, range, tokens⟩, spec =>
    if contents.kind = spec.dataKind then
      (match contents with
        | .dict entries _ => ofEntries r p spec entries
        | .array items => ofItems r p spec 0 items
        | .tuple items => ofItems r p spec 0 items).orElse (found ⟨contents, range, tokens⟩ spec)
    else typeFailed

/-- The innermost block around a position in some properties. One without a type is no place to
be. -/
def ofEntries (r : Resolver) (p : Position) (spec : BlockSpec) : List (String × Data) → Enclosing
  | [] => outside
  | (key, data) :: rest =>
    (match spec.property? key with
      | some property => ofData r p data property
      | none => if data.range.contains p then typeFailed else outside).orElse
      (ofEntries r p spec rest)

/-- The innermost block around a position in the elements from an index on. -/
def ofItems (r : Resolver) (p : Position) (spec : BlockSpec) (index : Nat) : List Data → Enclosing
  | [] => outside
  | data :: rest =>
    (match spec.element? index with
      | some element => ofData r p data element
      | none => if data.range.contains p then typeFailed else outside).orElse
      (ofItems r p spec (index + 1) rest)

end

end Enclosing

/-- Where a position is among the items of a block. -/
structure CursorPlace where
  /-- The number of values that end before it. -/
  valuesBefore : Nat := 0
  /-- The key that it is on or behind, unless the value of that key has ended. -/
  passedKey : Option String := none
  /-- Whether it is inside an item. -/
  isInside : Bool := false
  deriving DecidableEq, Inhabited

namespace CursorPlace

/-- The keys and values of a block in the order of their places; a value has no name. -/
def landmarks (block : Block Data) : List (Range × Option String) :=
  let values := block.contents.children.map fun d => (d.range, none)
  let keys := match block.contents with
    | .dict _ keyRanges => keyRanges.map fun (key, range) => (range, some key)
    | _ => []
  (values ++ keys).mergeSort fun a b => a.1.start ≤ b.1.start

/-- Passes landmarks up to a position. -/
def walk (p : Position) (place : CursorPlace) : List (Range × Option String) → CursorPlace
  | [] => place
  | (range, key) :: rest =>
    if p < range.start then place
    else if range.contains p then
      { place with
        passedKey := match key with
          | some key => some key
          | none => place.passedKey
        isInside := true }
    else
      match key with
      | some key => walk p { place with passedKey := some key } rest
      | none =>
        walk p { place with passedKey := none, valuesBefore := place.valuesBefore + 1 } rest

/-- Where a position is among the items of a block. -/
def ofBlock (block : Block Data) (p : Position) : CursorPlace :=
  walk p {} (landmarks block)

end CursorPlace

end TypedNotation
