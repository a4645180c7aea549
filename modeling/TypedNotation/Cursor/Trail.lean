import TypedNotation.Data
import TypedNotation.TypeSpec

/-!
# The way to a position

A *trail* leads from the root of a data tree to the part under a position, step by step, each step
with the range of what it leads to. A position on a key is reached by the key alone.

`ExpectedType.walk` follows a trail in the type: as far as the steps make sense there, it says which
type is wanted at the end.
-/

namespace TypedNotation

/-- A step and the range of what it leads to. -/
structure TrailStep where
  step : Step
  range : Range
  deriving DecidableEq, Inhabited

/-- A way from the root of a data tree to one of its parts. -/
structure Trail where
  root : Range
  steps : List TrailStep

namespace Trail

/-- The range of the part where the trail ends. -/
def target (t : Trail) : Range :=
  (t.steps.getLast?.map (·.range)).getD t.root

/-- The range that is reached after some steps. -/
def rangeAfter (t : Trail) : Nat → Range
  | 0 => t.root
  | n + 1 => (t.steps[n]?.map (·.range)).getD t.target

mutual

/-- The steps from a data tree to the part under a position inside it. -/
def stepsIn (p : Position) : Data → List TrailStep
  | .primitive .. => []
  | .block ⟨contents, _, _⟩ => stepsInContents p contents
  | .enum tag _ none range _ => [⟨.tag tag, range⟩]
  | .enum tag _ (some ⟨contents, _, _⟩) range _ => ⟨.tag tag, range⟩ :: stepsInContents p contents

/-- The steps from a block to the part under a position. -/
def stepsInContents (p : Position) : Contents Data → List TrailStep
  | .dict entries keyRanges =>
    match keyRanges.find? (·.2.contains p) with
    | some (key, range) => [⟨.key key, range⟩]
    | none => stepsInEntries p entries
  | .array items => stepsInItems p .arrayElement 0 items
  | .tuple items => stepsInItems p .tupleElement 0 items

/-- The steps to the first property that contains a position. -/
def stepsInEntries (p : Position) : List (String × Data) → List TrailStep
  | [] => []
  | (key, d) :: rest =>
    if d.range.contains p then ⟨.key key, d.range⟩ :: stepsIn p d else stepsInEntries p rest

/-- The steps to the first element from an index on that contains a position. -/
def stepsInItems (p : Position) (step : Nat → Step) (index : Nat) : List Data → List TrailStep
  | [] => []
  | d :: rest =>
    if d.range.contains p then ⟨step index, d.range⟩ :: stepsIn p d
    else stepsInItems p step (index + 1) rest

end

/-- The trail to the part under a position, if the data tree contains it. -/
def to? (data : Data) (p : Position) : Option Trail :=
  if data.range.contains p then some ⟨data.range, stepsIn p data⟩ else none

end Trail

/-- What is wanted at the end of a trail. -/
inductive ExpectedType where
  | spec (spec : TypeSpec)
  | block (spec : BlockSpec)
  | unit

/-- How far a trail could be followed in a type. -/
structure TypeWalk where
  /-- The number of steps that could be followed. -/
  safeSteps : Nat
  expected : ExpectedType
  /-- The steps that were followed: `.key`, `._`, `[]`, `[i]` and `#Tag`. -/
  path : String

namespace ExpectedType

/-- The type that one step leads to, and how the step is written. -/
def next? (r : Resolver) (expected : ExpectedType) (step : Step) : Option (ExpectedType × String) :=
  let resolved := match expected with
    | .spec s =>
      match s.resolve r with
      | .ok s => s
      | .error _ => .missing
    | .block b => .block b
    | .unit => .missing
  match step, resolved with
  | .tag tag, .enum variants =>
    (variants.lookup tag).map fun
      | some b => (.block b, "#" ++ tag)
      | none => (.unit, "#" ++ tag)
  | .key key, .block (.dict fields) =>
    (fields.lookup key).map fun field => (.spec field, "." ++ key)
  | .key _, .block (.record value) => some (.spec value, "._")
  | .arrayElement _, .block (.array element) => some (.spec element, "[]")
  | .tupleElement i, .block (.tuple elements) =>
    elements[i]?.map fun element => (.spec element, s!"[{i}]")
  | _, _ => none

/-- Follows steps as far as they lead to a type. -/
def walk (r : Resolver) (expected : ExpectedType) : List Step → TypeWalk
  | [] => ⟨0, expected, ""⟩
  | step :: rest =>
    match expected.next? r step with
    | none => ⟨0, expected, ""⟩
    | some (next, text) =>
      let w := next.walk r rest
      ⟨w.safeSteps + 1, w.expected, text ++ w.path⟩

end ExpectedType

namespace Trail

/-- Follows a trail in a type. -/
def walk (t : Trail) (r : Resolver) (spec : TypeSpec) : TypeWalk :=
  (ExpectedType.spec spec).walk r (t.steps.map (·.step))

end Trail

end TypedNotation
