import TypedNotation.Json.Record

/-!
# Forms of JSON values

A form says which JSON values will do, where nothing of the value is needed but that it will.
Records are as in `Json.record?`: objects, in which fields of other names do not count, or arrays
with one item for each field, in order. A word from a fixed list may also be given as an object that
has it as its only field, with `null` for a value.
-/

namespace TypedNotation.Json

/-- Whether a field of a record must be given. -/
inductive Presence where
  | required
  /-- The field may be `null`, or absent from an object. -/
  | optional
  /-- The field may be `null` or absent, also from the end of an array. -/
  | omissible
  deriving DecidableEq, Inhabited

/-- The values that will do. -/
inductive Form where
  | any
  | flag
  | text
  | signed32
  | unsigned32
  | word (words : List String)
  | list (item : Form)
  | either (first second : Form)
  /-- An object or an array. -/
  | record (fields : List (String × Presence × Form))
  /-- An object only. -/
  | object (fields : List (String × Presence × Form))
  deriving Inhabited

namespace Form

/-- Whether a value is one of some words. -/
def isWord (words : List String) : Json → Bool
  | .str s => words.contains s
  | .obj [(s, .null)] => words.contains s
  | _ => false

mutual

/-- Whether a value will do. -/
def accepts : Form → Json → Bool
  | any, _ => true
  | flag, .bool _ => true
  | text, .str _ => true
  | signed32, j => j.signed32?.isSome
  | unsigned32, j => j.unsigned32?.isSome
  | word words, j => isWord words j
  | list item, .arr items => items.all item.accepts
  | either first second, j => first.accepts j || second.accepts j
  | record fields, .obj given => acceptsFields fields given
  | record fields, .arr items => acceptsItems fields items
  | object fields, .obj given => acceptsFields fields given
  | _, _ => false

/-- Whether the fields of an object will do. -/
def acceptsFields : List (String × Presence × Form) → List (String × Json) → Bool
  | [], _ => true
  | (name, presence, form) :: rest, given =>
    (match given.lookup name with
      | none => presence != .required
      | some j => (presence != .required && j.isNull) || form.accepts j) && acceptsFields rest given

/-- Whether the items of an array will do for the fields of a record. -/
def acceptsItems : List (String × Presence × Form) → List Json → Bool
  | [], items => items.isEmpty
  | (_, presence, _) :: rest, [] => presence == .omissible && acceptsItems rest []
  | (_, presence, form) :: rest, j :: items =>
    ((presence != .required && j.isNull) || form.accepts j) && acceptsItems rest items

end

/-- A record of truth values, all of which may be absent. -/
def flags (names : List String) : Form :=
  record (names.map fun name => (name, .optional, flag))

/-- Reads a value of which nothing is needed. -/
def read? (form : Form) (j : Json) : Option Unit :=
  if form.accepts j then some () else none

end Form

end TypedNotation.Json
