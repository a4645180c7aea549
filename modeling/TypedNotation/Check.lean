import TypedNotation.Data
import TypedNotation.Diagnostic
import TypedNotation.TypeSpec

/-!
# Checking data against a type

The check walks data and type side by side. A mismatch is reported and ends the walk only where it
is: every part that can still be paired with a type is checked too, so one pass reports all there
is.

The answer is a `Verdict`: whether the data has the type, and what was found.
-/

namespace TypedNotation

/-- The answer of a check. -/
structure Verdict where
  ok : Bool
  diagnostics : List Diagnostic

namespace Verdict

/-- Nothing is wrong. -/
def pass : Verdict :=
  ⟨true, []⟩

/-- Something is wrong and is reported. -/
def fail (kind : Diagnostic.Kind) (range : Range) (message : String) : Verdict :=
  ⟨false, [.error kind range message]⟩

/-- Both answers together. -/
def and (a b : Verdict) : Verdict :=
  ⟨a.ok && b.ok, a.diagnostics ++ b.diagnostics⟩

/-- All answers together. -/
def all (verdicts : List Verdict) : Verdict :=
  ⟨verdicts.all (·.ok), verdicts.flatMap (·.diagnostics)⟩

/-- Data of another kind than wanted. -/
def mismatch (range : Range) (expected found : String) : Verdict :=
  fail .typeMismatch range s!"Expected {expected}, found {found}."

/-- A tag that is none of the variants. -/
def unknownTag (variants : List (String × Option BlockSpec)) (tag : String) (range : Range) :
    Verdict :=
  let message :=
    if variants.isEmpty then s!"Unknown enum tag #{tag}. No tags are allowed here."
    else
      let allowed := ", ".intercalate (variants.map fun (t, _) => "#" ++ t)
      s!"Unknown enum tag #{tag}. Expected one of {allowed}."
  fail .unknownEnumTag range message

/-- A unit with a payload. -/
def needlessPayload (tag : String) (range : Range) : Verdict :=
  fail .unitMismatch range s!"Variant #{tag} is a unit and takes no payload."

/-- A variant without its payload. -/
def missingPayload (tag : String) (spec : BlockSpec) (range : Range) : Verdict :=
  fail .unitMismatch range s!"Variant #{tag} expects a {spec.describe} payload, found unit."

/-- The keys of a dict are exactly those wanted. -/
def keys (fields : List (String × TypeSpec)) (keyRanges : List (String × Range)) (range : Range) :
    Verdict :=
  let missing := fields.filter fun (name, _) => !keyRanges.any (·.1 == name)
  let unexpected := keyRanges.filter fun (name, _) => !fields.any (·.1 == name)
  all (missing.map (fun (name, _) => fail .missingProperty range s!"Missing property \"{name}\".")
    ++ unexpected.map fun (name, r) =>
      fail .unexpectedProperty r s!"Unexpected property \"{name}\".")

/-- A tuple has as many elements as wanted. -/
def arity (block : Range) (items : List Data) (expected : Nat) : Verdict :=
  let found := items.length
  match items.drop expected with
  | extra :: more =>
    fail .tooManyElements (more.foldl (fun r d => r.combine d.range) extra.range)
      s!"Too many elements: expected {expected}, found {found}."
  | [] =>
    if found < expected then
      let inner := block.contract 1 1
      let start := (items.getLast?.map (·.range.stop)).getD inner.start
      fail .tooFewElements ⟨start, max inner.stop start⟩
        s!"Too few elements: expected {expected}, found {found}."
    else pass

/-- A block has the keys, or the number of elements, that are wanted. -/
def shape (block : Block Data) (spec : BlockSpec) : Verdict :=
  match block.contents, spec with
  | .dict _ keyRanges, .dict fields => keys fields keyRanges block.range
  | .tuple items, .tuple elements => arity block.range items elements.length
  | _, _ => pass

end Verdict

namespace Data

mutual

/-- Checks data against a type. -/
def check (r : Resolver) : Data → TypeSpec → Verdict
  | data, spec =>
    match spec.resolve r with
    | .error issue =>
      .fail .unresolvedReference data.range
        s!"Cannot check against {spec.describe}: {issue.message}."
    | .ok resolved =>
      match data, resolved with
      | _, .missing => ⟨false, []⟩
      | _, .ref _ => ⟨false, []⟩
      | .primitive s range _, spec =>
        match spec with
        | .primitive kind =>
          if s.primitive = kind then .pass else .mismatch range kind.name s.primitive.name
        | spec => .mismatch range spec.describe s.primitive.name
      | .block b, spec =>
        match spec with
        | .block spec => checkBlock r b spec
        | .enum _ =>
          .fail .expectedEnum b.range s!"Expected enum value, found {b.contents.kind.name}."
        | spec => .mismatch b.range spec.describe b.contents.kind.name
      | .enum tag tagRange payload range _, spec =>
        match spec with
        | .enum variants =>
          match variants.lookup tag, payload with
          | none, _ => .unknownTag variants tag tagRange
          | some none, none => .pass
          | some none, some b => .needlessPayload tag b.range
          | some (some spec), none => .missingPayload tag spec tagRange
          | some (some spec), some b => checkBlock r b spec
        | spec => .mismatch range spec.describe ("enum value #" ++ tag)

/-- Checks a block against a block type. -/
def checkBlock (r : Resolver) : Block Data → BlockSpec → Verdict
  | ⟨contents, range, tokens⟩, spec =>
    if contents.kind = spec.dataKind then
      (Verdict.shape ⟨contents, range, tokens⟩ spec).and (checkContents r spec contents)
    else .mismatch range spec.describe contents.kind.name

/-- Checks the parts of a block that have a type. -/
def checkContents (r : Resolver) (spec : BlockSpec) : Contents Data → Verdict
  | .dict entries _ => checkEntries r spec entries
  | .array items => checkItems r spec 0 items
  | .tuple items => checkItems r spec 0 items

/-- Checks the properties of a dict that have a type. -/
def checkEntries (r : Resolver) (spec : BlockSpec) : List (String × Data) → Verdict
  | [] => .pass
  | (key, data) :: rest =>
    (match spec.property? key with
      | some property => data.check r property
      | none => .pass).and (checkEntries r spec rest)

/-- Checks the elements from an index on that have a type. -/
def checkItems (r : Resolver) (spec : BlockSpec) (index : Nat) : List Data → Verdict
  | [] => .pass
  | data :: rest =>
    (match spec.element? index with
      | some element => data.check r element
      | none => .pass).and (checkItems r spec (index + 1) rest)

end

end Data

end TypedNotation
