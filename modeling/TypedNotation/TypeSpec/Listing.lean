import TypedNotation.TypeSpec

/-!
# Listings of types

A type is listed with the types of its parts, `maxDepth` levels deep: every part and every name
looked up is one level, and what lies deeper is elided. Parts stand on lines of their own, indented,
unless all of them together are short enough for one line.
-/

namespace TypedNotation

namespace TypeSpec

/-- A line of a listing. -/
structure Line where
  indent : Nat := 0
  text : String

/-- The number of levels that are listed. -/
def maxDepth : Nat :=
  4

/-- Parts of fewer bytes than this stand on one line. -/
def joinBelow : Nat :=
  30

/-- Lines as one text, four spaces for each level of indent. -/
def render (lines : List Line) : String :=
  "\n".intercalate (lines.map fun l =>
    String.ofList (List.replicate (4 * l.indent) ' ') ++ l.text)

/-- A text in front of the first line. -/
def prepend (text : String) : List Line → List Line
  | [] => []
  | l :: rest => { l with text := text ++ l.text } :: rest

/-- A text behind the last line. -/
def append (text : String) : List Line → List Line
  | [] => []
  | [l] => [{ l with text := l.text ++ text }]
  | l :: rest => l :: append text rest

/-- Lines between brackets: joined if they are short, else indented. -/
def bracketed (opening : String) (inner : List Line) (closing : String) : List Line :=
  let size := inner.foldl (fun n l => n + l.text.utf8ByteSize)
    (opening.utf8ByteSize + closing.utf8ByteSize)
  if size < joinBelow then
    [{ text := opening ++ " " ++ ", ".intercalate (inner.map (·.text)) ++ " " ++ closing }]
  else
    { text := opening } :: inner.map (fun l => { l with indent := l.indent + 1 })
      ++ [{ text := closing }]

/-- The lines of a block type, given those of its parts. -/
def blockLines (part : TypeSpec → List Line) : BlockSpec → List Line
  | .dict fields =>
    bracketed "\x7b" (fields.flatMap fun (key, field) => prepend (key ++ ": ") (part field)) "\x7d"
  | .array element => append "[]" (part element)
  | .tuple elements => bracketed "#tuple (" (elements.flatMap part) ")"
  | .record value => bracketed "#record \x7b _:" (part value) "\x7d"

/-- The line for a type that is not known. -/
def missingLine : Line :=
  { text := " ~ missing ~ " }

/-- The lines of a type, so many levels deep. -/
def lines (r : Resolver) : Nat → TypeSpec → List Line
  | 0, _ => [{ text := " ... " }]
  | _ + 1, primitive kind => [{ text := "#" ++ kind.name }]
  | depth + 1, block spec => blockLines (lines r depth) spec
  | depth + 1, enum variants =>
    let inner := variants.flatMap fun (tag, payload) =>
      prepend (tag ++ ": ") (match payload with
        | some spec => blockLines (lines r depth) spec
        | none => [{ text := "#unit" }])
    bracketed "#enum \x7b" inner "\x7d"
  | depth + 1, ref name =>
    prepend ("@" ++ name ++ " ") (match r name with
      | .ok target => lines r depth target
      | .error _ => [missingLine])
  | _ + 1, missing => [missingLine]

/-- The listing of a type. -/
def listing (r : Resolver) (spec : TypeSpec) : String :=
  render (lines r maxDepth spec)

end TypeSpec

namespace BlockSpec

/-- The listing of a block type. -/
def listing (r : Resolver) (spec : BlockSpec) : String :=
  TypeSpec.render (TypeSpec.blockLines (TypeSpec.lines r (TypeSpec.maxDepth - 1)) spec)

end BlockSpec

end TypedNotation
