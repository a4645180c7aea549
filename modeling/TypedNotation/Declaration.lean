import TypedNotation.Ordered
import TypedNotation.TypeSpec

/-!
# The type of declarations

Type declarations are documents too, and this is the type that they are checked against. It is a
type with a name of its own, `Spec`, which it uses where a type occurs inside a type. References are
accepted only to the names that are declared.

In the notation of declarations, a type is one of `#int`, `#float`, `#boolean`, `#string`,
`#dict{key: type, ...}`, `#record(type)`, `#array(type)`, `#tuple[type, ...]`, `#enum{tag: variant,
...}` and `#ref(#name)`; a variant is `#unit` or one of the four block types.
-/

namespace TypedNotation.Declaration

/-- The name by which the type of declarations refers to itself. -/
def selfName : String :=
  "Spec"

/-- The type that every declaration has. -/
def root : TypeSpec :=
  .ref selfName

/-- The tags of block types and their payloads. -/
def blockVariants : List (String × Option BlockSpec) :=
  [("dict", some (.record root)), ("record", some (.tuple [root])), ("array", some (.tuple [root])),
   ("tuple", some (.array root))]

/-- What a reference may name. -/
def nameVariants (declared : List String) : List (String × Option BlockSpec) :=
  Ordered.ofList (declared.map fun name => (name, none))

/-- The shape of a declaration when some names are declared. -/
def shape (declared : List String) : TypeSpec :=
  .enum
    ([("int", none), ("float", none), ("boolean", none), ("string", none)] ++ blockVariants
      ++ [("enum", some (.record (.enum (("unit", none) :: blockVariants)))),
          ("ref", some (.tuple [.enum (nameVariants declared)]))])

/-- The lookup of names inside the type of declarations. -/
def resolver (declared : List String) : Resolver := fun name =>
  if name = selfName then .ok (shape declared) else .error (.couldNotFind name)

end TypedNotation.Declaration
