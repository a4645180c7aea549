import TypedNotation.Double

/-!
# JSON values

Settings, listings and the messages of the editor protocol are JSON. A number that is written as an
integer and fits into 64 bits, signed or unsigned, is kept apart from all other numbers. The fields
of an object keep the order in which they are given.
-/

namespace TypedNotation

/-- A JSON value. -/
inductive Json where
  | null
  | bool (value : Bool)
  | int (value : Int)
  | float (value : Double)
  | str (value : String)
  | arr (items : List Json)
  | obj (fields : List (String × Json))
  deriving Inhabited

namespace Json

instance : Coe String Json := ⟨str⟩

instance : Coe Bool Json := ⟨bool⟩

instance : Coe Nat Json := ⟨fun n => int n⟩

/-- A field of an object. -/
def field? (name : String) : Json → Option Json
  | obj fields => fields.lookup name
  | _ => none

/-- Whether a value is `null`. -/
def isNull : Json → Bool
  | null => true
  | _ => false

/-- The value of an optional part; `null` stands for its absence. -/
def ofOption (value : Option Json) : Json :=
  value.getD null

/-- An object whose fields are sorted by name. -/
def sorted (fields : List (String × Json)) : Json :=
  obj (fields.mergeSort fun a b => a.1 ≤ b.1)

mutual

/-- The value with the fields of each of its objects sorted by name. -/
def arranged : Json → Json
  | arr items => arr (arrangedItems items)
  | obj fields => sorted (arrangedFields fields)
  | j => j

/-- Items, each one arranged. -/
def arrangedItems : List Json → List Json
  | [] => []
  | x :: xs => x.arranged :: arrangedItems xs

/-- Fields in the order given, the value of each one arranged. -/
def arrangedFields : List (String × Json) → List (String × Json)
  | [] => []
  | (name, x) :: rest => (name, x.arranged) :: arrangedFields rest

end

/-- An object without the fields that are absent. -/
def present (fields : List (String × Option Json)) : Json :=
  obj (fields.filterMap fun (name, value) => value.map (name, ·))

end Json

end TypedNotation
