import TypedNotation.BlockKind
import TypedNotation.Value

/-!
# Type specifications

A specification says which data is wanted: a primitive, a block of some shape, one of several enum
variants, or whatever a declared name stands for. Names are looked up only where a traversal meets
them, so a type may mention itself.

A lookup can fail in four ways, the `ResolutionIssue`s. A chain of names that leads to nothing but
names is cut after `TypeSpec.maxHops` steps.
-/

namespace TypedNotation

mutual

/-- What data is wanted. -/
inductive TypeSpec where
  | primitive (kind : Primitive)
  | block (spec : BlockSpec)
  /-- The variants by their tags; a variant without a block is a unit. -/
  | enum (variants : List (String × Option BlockSpec))
  /-- Whatever a declared name stands for. -/
  | ref (name : String)
  /-- Stands in for a type that is not known. -/
  | missing

/-- What block is wanted. -/
inductive BlockSpec where
  /-- A dict with exactly these keys. -/
  | dict (fields : List (String × TypeSpec))
  /-- A dict with any keys and values of one type. -/
  | record (value : TypeSpec)
  | array (element : TypeSpec)
  | tuple (elements : List TypeSpec)

end

instance : Inhabited TypeSpec := ⟨.missing⟩

instance : Inhabited BlockSpec := ⟨.tuple []⟩

/-- Why a name does not lead to a type. -/
inductive ResolutionIssue where
  /-- Nothing declares the name. -/
  | couldNotFind (name : String)
  /-- The name is declared more than once. -/
  | conflictingDeclarations (name : String)
  /-- The declaration of the name does not describe a type. -/
  | defectiveDeclaration (name : String)
  /-- The name of a document names no type. -/
  | referenceInvalid (name : String)
  deriving DecidableEq, Inhabited

namespace ResolutionIssue

/-- The name of the kind of issue. -/
def kind : ResolutionIssue → String
  | couldNotFind _ => "could-not-find"
  | conflictingDeclarations _ => "conflicting-declarations"
  | defectiveDeclaration _ => "defective-declaration"
  | referenceInvalid _ => "reference-invalid"

/-- What could not be resolved. -/
def name : ResolutionIssue → String
  | couldNotFind n | conflictingDeclarations n | defectiveDeclaration n | referenceInvalid n => n

/-- The issue in words. -/
def message : ResolutionIssue → String
  | couldNotFind n => s!"could not find a type declaration for \"{n}\""
  | conflictingDeclarations n => s!"type \"{n}\" is declared more than once"
  | defectiveDeclaration n => s!"the declaration of type \"{n}\" is defective"
  | referenceInvalid n => s!"cannot derive a type name from \"{n}\""

end ResolutionIssue

/-- A lookup of declared names. -/
abbrev Resolver := String → Except ResolutionIssue TypeSpec

namespace Resolver

/-- The lookup in a list of named types. -/
def ofList (types : List (String × TypeSpec)) : Resolver := fun name =>
  match types.lookup name with
  | some spec => .ok spec
  | none => .error (.couldNotFind name)

end Resolver

namespace BlockSpec

/-- The kind of block that is wanted. -/
def dataKind : BlockSpec → BlockKind
  | dict _ | record _ => .dict
  | array _ => .array
  | tuple _ => .tuple

/-- What is wanted, in messages. -/
def describe : BlockSpec → String
  | dict _ => "dict"
  | record _ => "record"
  | array _ => "array"
  | tuple _ => "tuple"

/-- The type of the property under a key. -/
def property? : BlockSpec → String → Option TypeSpec
  | dict fields, key => fields.lookup key
  | record value, _ => some value
  | _, _ => none

/-- The type of the element at an index. -/
def element? : BlockSpec → Nat → Option TypeSpec
  | array element, _ => some element
  | tuple elements, i => elements[i]?
  | _, _ => none

end BlockSpec

namespace TypeSpec

/-- What is wanted, in messages. -/
def describe : TypeSpec → String
  | primitive kind => kind.name
  | block spec => spec.describe
  | enum _ => "enum value"
  | ref name => "@" ++ name
  | missing => "missing type"

/-- The longest chain of names that is followed. -/
def maxHops : Nat :=
  64

/-- Follows at most so many names. -/
def follow (r : Resolver) : Nat → TypeSpec → Except ResolutionIssue TypeSpec
  | 0, ref name => .error (.defectiveDeclaration name)
  | hops + 1, ref name =>
    match r name with
    | .ok next => follow r hops next
    | .error issue => .error issue
  | _, spec => .ok spec

/-- Follows names until a type that is no name is reached. -/
def resolve (r : Resolver) (spec : TypeSpec) : Except ResolutionIssue TypeSpec :=
  follow r maxHops spec

end TypeSpec

end TypedNotation
