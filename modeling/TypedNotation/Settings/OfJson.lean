import TypedNotation.Settings
import TypedNotation.Toml.Reader

/-!
# Settings from JSON and TOML

Settings are objects. Every field has a name and may have a second one; to give both is an error, to
give neither leaves the default, and fields of other names do not count. Instead of an object the
values of the fields may be given as a list in a fixed order, from the first one on. An editor's
list may not be longer than that; a list in a settings file may.

Numbers are integers within the bounds of their field.
-/

namespace TypedNotation

namespace Settings

/-- The names of a field. -/
structure FieldName where
  name : String
  second : Option String := none

namespace FieldName

/-- Whether a key names the field. -/
def isNamed (f : FieldName) (key : String) : Bool :=
  key == f.name || f.second == some key

end FieldName

/-- What is given for each field; `none` if the value as a whole is not acceptable. -/
def fields? (strict : Bool) (names : List FieldName) : Json → Option (List (Option Json))
  | .obj given =>
    names.mapM fun name =>
      match given.filter fun (key, _) => name.isNamed key with
      | [] => some none
      | [(_, value)] => some (some value)
      | _ => none
  | .arr items =>
    if strict && names.length < items.length then none
    else some ((List.range names.length).map fun i => items[i]?)
  | _ => none

/-- A field that may be absent. -/
def orDefault {α : Type} (default : α) (read : Json → Option α) : Option Json → Option α
  | none => some default
  | some value => read value

/-- A natural number below a bound. -/
def number? (bound : Nat) : Json → Option Nat
  | .int n => if 0 ≤ n ∧ n < bound then some n.toNat else none
  | _ => none

/-- A truth value. -/
def flag? : Json → Option Bool
  | .bool b => some b
  | _ => none

/-- Choices about layout. -/
def layout? (strict : Bool) (value : Json) : Option LayoutSettings :=
  let default : LayoutSettings := {}
  match fields? strict [⟨"whitespace", none⟩, ⟨"indent_width", some "indentWidth"⟩] value with
  | some [enabled, width] => do
    let enabled ← orDefault default.enabled flag? enabled
    let width ← orDefault default.indentWidth (number? UInt32.size) width
    some ⟨enabled, width⟩
  | _ => none

/-- Choices about refreshing. -/
def refresh? (strict : Bool) (value : Json) : Option RefreshSettings :=
  let default : RefreshSettings := {}
  match fields? strict [⟨"initial_delay_ms", some "initialDelayMs"⟩,
      ⟨"repeat_delay_ms", some "repeatDelayMs"⟩] value with
  | some [first, again] => do
    let first ← orDefault default.initialDelay (number? UInt64.size) first
    let again ← orDefault default.repeatDelay (number? UInt64.size) again
    some ⟨first, again⟩
  | _ => none

/-- All choices. -/
def ofJson? (strict : Bool) (value : Json) : Option Settings :=
  let default : Settings := {}
  match fields? strict [⟨"max_number_of_problems", some "maxNumberOfProblems"⟩, ⟨"lint", none⟩,
      ⟨"refresh", none⟩] value with
  | some [problems, layout, refresh] => do
    let problems ← orDefault default.maxProblems (number? UInt64.size) problems
    let layout ← orDefault default.layout (layout? strict) layout
    let refresh ← orDefault default.refresh (refresh? strict) refresh
    some ⟨problems, layout, refresh⟩
  | _ => none

/-- The section of an editor's configuration that holds the settings. -/
def editorSection : String :=
  "thrdLanguageServer"

/-- Settings from an editor: its whole configuration, or the section alone. -/
def ofEditor? (value : Json) : Option Settings :=
  ofJson? true ((value.field? editorSection).getD value)

/-- Settings from the text of a settings file. -/
def ofToml? (text : String) : Option Settings :=
  (Toml.read? text).bind (ofJson? false)

end Settings

end TypedNotation
