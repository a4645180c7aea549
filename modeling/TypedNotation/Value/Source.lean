import TypedNotation.Double.Notation
import TypedNotation.Text.Quoted
import TypedNotation.Value

/-!
# Source text of values

`Value.source` writes a value as a document of one line. Items are separated by a comma and a space,
a key by a colon and a space from its value, and a float always shows a point or a power of ten, so
that it is not read as an integer.
-/

namespace TypedNotation

namespace Scalar

/-- Four hexadecimal digits of a number below `65536`. -/
def hex4 (n : Nat) : List Char :=
  let digits := Text.hex n
  List.replicate (4 - digits.length) '0' ++ digits

/-- How a character is written inside a string. -/
def escaped (c : Char) : List Char :=
  if c = '"' then ['\\', '"']
  else if c = '\\' then ['\\', '\\']
  else if c = '\n' then ['\\', 'n']
  else if c = '\r' then ['\\', 'r']
  else if c = '\t' then ['\\', 't']
  else if c.toNat < 0x20 || c.toNat = 0x7F then ['\\', 'u'] ++ hex4 c.toNat
  else [c]

/-- The text of a float, which always looks like one. -/
def floatSource (x : Double) : List Char :=
  let text := (x.text .document).toList
  if text.any fun c => c == '.' || c == 'e' || c == 'E' then text else text ++ ['.', '0']

/-- The text of a scalar. -/
def source : Scalar → List Char
  | int v => (toString v.toInt).toList
  | float v => floatSource v
  | boolean v => if v then "true".toList else "false".toList
  | string v => '"' :: v.toList.flatMap escaped ++ ['"']

end Scalar

namespace Value

/-- Texts with a comma and a space between them. -/
def commaSeparated : List (List Char) → List Char
  | [] => []
  | [text] => text
  | text :: rest => text ++ [',', ' '] ++ commaSeparated rest

mutual

/-- The characters of the source text. -/
def sourceChars : Value → List Char
  | scalar s => s.source
  | dict entries => '{' :: commaSeparated (entrySources entries) ++ ['}']
  | array items => '[' :: commaSeparated (itemSources items) ++ [']']
  | tuple items => '(' :: commaSeparated (itemSources items) ++ [')']
  | enum tag payload => '#' :: tag.toList ++ payloadSource payload

/-- The texts of the entries of a dict. -/
def entrySources : List (String × Value) → List (List Char)
  | [] => []
  | (key, value) :: rest => (key.toList ++ [':', ' '] ++ value.sourceChars) :: entrySources rest

/-- The texts of items. -/
def itemSources : List Value → List (List Char)
  | [] => []
  | value :: rest => value.sourceChars :: itemSources rest

/-- The text of a payload; a unit has none. -/
def payloadSource : Option Value → List Char
  | none => []
  | some value => value.sourceChars

end

/-- A document of one line that means the value. -/
def source (v : Value) : String :=
  String.ofList v.sourceChars

end Value

end TypedNotation
