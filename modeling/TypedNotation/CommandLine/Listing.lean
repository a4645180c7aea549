import TypedNotation.Analysis
import TypedNotation.Editor.View
import TypedNotation.Json.Writer

/-!
# Listings

What the command line prints: findings, chunks, tokens and values, as lines of text or as JSON.
Lines and columns of findings count from one, as compilers do; ranges elsewhere count from zero, as
editors do.
-/

namespace TypedNotation

/-- A text filled up with blanks to a width. -/
def padded (width : Nat) (text : String) : String :=
  text ++ String.ofList (List.replicate (width - text.length) ' ')

/-- A place as text. -/
def Range.listing (r : Range) : String :=
  s!"{r.start.line}:{r.start.character}-{r.stop.line}:{r.stop.character}"

/-! ### JSON with sorted fields -/

/-- A position with its fields in the order of their names. -/
def Position.sorted (p : Position) : Json :=
  .obj [("character", p.character), ("line", p.line)]

/-- A range with its fields in the order of their names. -/
def Range.sorted (r : Range) : Json :=
  .obj [("end", r.stop.sorted), ("start", r.start.sorted)]

/-- An edit with its fields in the order of their names. -/
def Edit.sorted (e : Edit) : Json :=
  .obj [("new_text", e.newText), ("range", e.range.sorted)]

/-- A remark with its fields in the order of their names. -/
def Related.sorted (r : Related) : Json :=
  .obj [("message", r.message), ("range", r.range.sorted)]

namespace Diagnostic

/-- A finding with its fields in the order of their names. -/
def sorted (d : Diagnostic) : Json :=
  .present
    [("auto_fix", d.fix.map (·.sorted)),
     ("fatal", (d.fatal : Json)),
     ("kind", (d.kind.name : Json)),
     ("message", (d.message : Json)),
     ("range", d.range.sorted),
     ("related", if d.related.isEmpty then none else some (.arr (d.related.map (·.sorted)))),
     ("severity", (d.severity.name : Json))]

/-- A finding in a file, on one line. -/
def listing (file : String) (d : Diagnostic) : String :=
  let place := s!"{file}:{d.range.start.line + 1}:{d.range.start.character + 1}"
  s!"{place}: {d.severity.label}: {d.message} [{d.kind.name}]"

end Diagnostic

/-! ### Values -/

/-- A scalar as JSON. -/
def Scalar.toJson : Scalar → Json
  | .int n => .int n.toInt
  | .float x => .float x
  | .boolean b => .bool b
  | .string s => .str s

namespace Value

mutual

/-- A value as JSON, with the name of its kind around it. -/
def toJson : Value → Json
  | scalar s => .obj [(s.primitive.name, s.toJson)]
  | dict entries => .obj [("dict", .obj (entriesToJson entries))]
  | array items => .obj [("array", .arr (itemsToJson items))]
  | tuple items => .obj [("tuple", .arr (itemsToJson items))]
  | enum tag none => .obj [("enum", .obj [("tag", tag)])]
  | enum tag (some payload) => .obj [("enum", .obj [("tag", tag), ("payload", payload.toJson)])]

/-- The items of a list as JSON. -/
def itemsToJson : List Value → List Json
  | [] => []
  | v :: vs => v.toJson :: itemsToJson vs

/-- The entries of a dict as JSON. -/
def entriesToJson : List (String × Value) → List (String × Json)
  | [] => []
  | (k, v) :: vs => (k, v.toJson) :: entriesToJson vs

end

end Value

/-! ### Chunks -/

namespace Chunk

/-- The name of the kind of a chunk. -/
def kindName : Chunk → String
  | block _ => "block"
  | enum .. => "enum"
  | key .. => "key"
  | value .. => "value"
  | separator .. => "separator"

/-- What there is to say of a chunk besides its kind. -/
def detail : Chunk → String
  | block b => b.kind.name
  | enum tag _ (some b) _ _ => s!"#{tag} {b.kind.name}"
  | enum tag _ none _ _ => s!"#{tag}"
  | key name _ _ _ => name
  | value s _ _ => s.toJson.compact
  | separator weak _ _ => if weak then "weak" else "strong"

/-- A chunk in columns. -/
def row (c : Chunk) : String :=
  padded 14 c.range.listing ++ " " ++ padded 9 c.kindName ++ " " ++ c.detail

/-- A chunk with its fields in the order of their names. -/
def sorted (c : Chunk) : Json :=
  .obj [("detail", c.detail), ("kind", c.kindName), ("range", c.range.sorted)]

end Chunk

/-! ### Tokens -/

/-- The name of a side and its name in JSON. -/
def Side.names : Side → String × String
  | .opening => ("Begin", "begin")
  | .closing => ("End", "end")

/-- The name of a kind of block and its name in JSON. -/
def BlockKind.names : BlockKind → String × String
  | .dict => ("Dict", "dict")
  | .array => ("Array", "array")
  | .tuple => ("Tuple", "tuple")

/-- The name of a kind of literal and its name in JSON. -/
def Literal.names : Literal → String × String
  | .int => ("Int", "int")
  | .float => ("Float", "float")
  | .boolean => ("Boolean", "boolean")

namespace TokenKind

/-- A truth value as text. -/
def truth (b : Bool) : String :=
  if b then "true" else "false"

/-- A property of a kind: its name, its value as text, and its value in JSON. -/
structure Property where
  name : String
  text : String
  json : Json

/-- A property whose value is a name. -/
def named (name : String) (names : String × String) : Property :=
  ⟨name, names.1, names.2⟩

/-- A property whose value is a truth value. -/
def flag (name : String) (b : Bool) : Property :=
  ⟨name, truth b, b⟩

/-- The name of a kind, its name in JSON, and its properties. -/
def parts : TokenKind → String × String × List Property
  | key => ("PropertyKey", "propertyKey", [])
  | tag => ("EnumKey", "enumKey", [])
  | literal l => ("PrimitiveData", "primitiveData", [named "literal" l.names])
  | stringText escape => ("StringData", "stringData", [flag "escape" escape])
  | quote side => ("StringBoundary", "stringBoundary", [named "side" side.names])
  | bracket kind side =>
    ("BlockBoundary", "blockBoundary", [named "kind" kind.names, named "side" side.names])
  | comma => ("Separator", "separator", [named "separator" ("List", "list")])
  | colon => ("Separator", "separator", [named "separator" ("KeyValue", "keyValue")])
  | ignored => ("Ignored", "ignored", [])
  | invalid unknown => ("Invalid", "invalid", [flag "unknown" unknown])
  | newline => ("Newline", "newline", [])

/-- A kind as text. -/
def listing (k : TokenKind) : String :=
  match k.parts with
  | (name, _, []) => name
  | (name, _, properties) =>
    let shown := properties.map fun p => p.name ++ ": " ++ p.text
    name ++ " \x7b " ++ ", ".intercalate shown ++ " \x7d"

/-- A kind as JSON. -/
def toJson (k : TokenKind) : Json :=
  match k.parts with
  | (_, name, properties) => .obj (("type", .str name) :: properties.map fun p => (p.name, p.json))

end TokenKind

namespace Token

/-- A token in columns. -/
def row (t : Token) : String :=
  padded 14 t.range.listing ++ " " ++ padded 40 t.kind.listing ++ " " ++ Text.quoted t.text

/-- A token as JSON. -/
def toJson (t : Token) : Json :=
  .obj [("data", t.kind.toJson), ("range", t.range.view), ("text", t.text), ("depth", t.depth)]

end Token

end TypedNotation
