import TypedNotation.Json

/-!
# Reading records from JSON

A record is an object with fields of given names; fields of other names do not count. It may also be
given as an array with one item for each name, in order, of which some records let the last items be
left out. A field that may be absent may be `null` as well.
-/

namespace TypedNotation.Json

/-- A string. -/
def text? : Json → Option String
  | str s => some s
  | _ => none

/-- An integer from one bound up to another. -/
def within? (low high : Int) : Json → Option Int
  | int n => if low ≤ n ∧ n ≤ high then some n else none
  | _ => none

/-- A signed integer of 32 bits. -/
def signed32? : Json → Option Int :=
  within? Int32.minValue.toInt Int32.maxValue.toInt

/-- An unsigned integer of 32 bits. -/
def unsigned32? (j : Json) : Option Nat :=
  (within? 0 (UInt32.size - 1) j).map Int.toNat

/-- A list, all of whose items can be read. -/
def list? {α : Type} (read : Json → Option α) : Json → Option (List α)
  | arr items => items.mapM read
  | _ => none

/-- An object. -/
def object? : Json → Option Json
  | obj fields => some (obj fields)
  | _ => none

/-- A record of which an array gives at least the first few fields, as an object. -/
def recordFrom? (least : Nat) (names : List String) : Json → Option Json
  | obj fields => some (obj fields)
  | arr items =>
    if least ≤ items.length ∧ items.length ≤ names.length then some (obj (names.zip items))
      else none
  | _ => none

/-- A record, as an object. -/
def record? (names : List String) : Json → Option Json :=
  recordFrom? names.length names

/-- A field that must be there. -/
def required? {α : Type} (j : Json) (name : String) (read : Json → Option α) : Option α :=
  (j.field? name).bind read

/-- A field that may be absent. -/
def optional? {α : Type} (j : Json) (name : String) (read : Json → Option α) : Option (Option α) :=
  match j.field? name with
  | none | some null => some none
  | some value => (read value).map some

/-- Either of two readings. -/
def either? {α : Type} (first second : Json → Option α) (j : Json) : Option α :=
  (first j).or (second j)

/-- A reading of which only the success counts. -/
def accepts? {α : Type} (read : Json → Option α) (j : Json) : Option Unit :=
  (read j).map fun _ => ()

end TypedNotation.Json
