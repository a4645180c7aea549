import TypedNotation.TypeSpec

/-!
# Types written as values

Declarations are documents, and a type is read off the value of one. Primitives are the tags `#int`,
`#float`, `#boolean` and `#string`; blocks are `#dict` with a dict of types, `#record` and `#array`
with a tuple of one type, and `#tuple` with an array of types; `#enum` takes a dict whose values are
`#unit` or a block type; and `#ref` takes a tuple with the declared name as a tag.

A value of any other shape is no type.
-/

namespace TypedNotation

namespace TypeSpec

/-- The primitive of a tag. -/
def primitive? (tag : String) : Option TypeSpec :=
  if tag = "int" then some (.primitive .int)
  else if tag = "float" then some (.primitive .float)
  else if tag = "boolean" then some (.primitive .boolean)
  else if tag = "string" then some (.primitive .string)
  else none

/-- The reference in a tuple. -/
def ref? : List Value → Option TypeSpec
  | [.enum name none] => some (.ref name)
  | _ => none

mutual

/-- The type that a value describes. -/
def ofValue? : Value → Option TypeSpec
  | .enum tag none => primitive? tag
  | .enum tag (some payload) =>
    match payload with
    | .dict entries =>
      if tag = "enum" then (variants? entries).map .enum
      else if tag = "dict" then (fields? entries).map fun fields => .block (.dict fields)
      else none
    | .tuple items =>
      if tag = "ref" then ref? items else (single? tag items).map .block
    | .array items =>
      if tag = "tuple" then (elements? items).map fun elements => .block (.tuple elements)
      else none
    | _ => none
  | _ => none

/-- The block type that a payload describes under a tag. -/
def blockOf? (tag : String) : Value → Option BlockSpec
  | .dict entries => if tag = "dict" then (fields? entries).map .dict else none
  | .tuple items => single? tag items
  | .array items => if tag = "tuple" then (elements? items).map .tuple else none
  | _ => none

/-- A record or an array of the one type in a tuple. -/
def single? (tag : String) : List Value → Option BlockSpec
  | [item] =>
    if tag = "record" then (ofValue? item).map .record
    else if tag = "array" then (ofValue? item).map .array
    else none
  | _ => none

/-- The fields of a dict type. -/
def fields? : List (String × Value) → Option (List (String × TypeSpec))
  | [] => some []
  | (key, value) :: rest =>
    match ofValue? value, fields? rest with
    | some spec, some fields => some ((key, spec) :: fields)
    | _, _ => none

/-- The elements of a tuple type. -/
def elements? : List Value → Option (List TypeSpec)
  | [] => some []
  | value :: rest =>
    match ofValue? value, elements? rest with
    | some spec, some elements => some (spec :: elements)
    | _, _ => none

/-- The variants of an enum type. -/
def variants? : List (String × Value) → Option (List (String × Option BlockSpec))
  | [] => some []
  | (name, .enum tag none) :: rest =>
    if tag = "unit" then (variants? rest).map ((name, none) :: ·) else none
  | (name, .enum tag (some payload)) :: rest =>
    match blockOf? tag payload, variants? rest with
    | some spec, some variants => some ((name, some spec) :: variants)
    | _, _ => none
  | _ :: _ => none

end

end TypeSpec

namespace BlockSpec

/-- The block type that a value describes. -/
def ofValue? : Value → Option BlockSpec
  | .enum tag (some payload) => TypeSpec.blockOf? tag payload
  | _ => none

end BlockSpec

end TypedNotation
