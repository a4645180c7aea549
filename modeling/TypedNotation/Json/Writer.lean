import TypedNotation.Double.Notation
import TypedNotation.Json
import TypedNotation.Text.Quoted

/-!
# JSON text

A value is written either on one line without blanks, or with every item on a line of its own and
two spaces of indent for each level. An infinite number or a not-a-number has no JSON text and is
written `null`.
-/

namespace TypedNotation.Json

/-- How a character is written inside a string. -/
def escaped (c : Char) : List Char :=
  if c = '"' then ['\\', '"']
  else if c = '\\' then ['\\', '\\']
  else if c = '\n' then ['\\', 'n']
  else if c = '\r' then ['\\', 'r']
  else if c = '\t' then ['\\', 't']
  else if c.toNat = 8 then ['\\', 'b']
  else if c.toNat = 12 then ['\\', 'f']
  else if c.toNat < 0x20 then
    let digits := Text.hex c.toNat
    ['\\', 'u'] ++ List.replicate (4 - digits.length) '0' ++ digits
  else [c]

/-- A string between quotes. -/
def quoted (s : String) : String :=
  String.ofList ('"' :: s.toList.flatMap escaped ++ ['"'])

/-- The text of a value without parts. -/
def leaf : Json → String
  | null => "null"
  | bool b => if b then "true" else "false"
  | int n => toString n
  | float x => if x.isFinite then x.text .json else "null"
  | str s => quoted s
  | arr _ => "[]"
  | obj _ => "\x7b\x7d"

mutual

/-- The text on one line. -/
def compact : Json → String
  | arr items => "[" ++ compactItems items ++ "]"
  | obj fields => "\x7b" ++ compactFields fields ++ "\x7d"
  | x => x.leaf

/-- Items with commas between them. -/
def compactItems : List Json → String
  | [] => ""
  | [x] => x.compact
  | x :: xs => x.compact ++ "," ++ compactItems xs

/-- Fields with commas between them. -/
def compactFields : List (String × Json) → String
  | [] => ""
  | [(k, x)] => quoted k ++ ":" ++ x.compact
  | (k, x) :: xs => quoted k ++ ":" ++ x.compact ++ "," ++ compactFields xs

end

/-- A new line at a level. -/
def newLine (level : Nat) : String :=
  "\n" ++ String.ofList (List.replicate (2 * level) ' ')

mutual

/-- The text with items on their own lines, starting at a level. -/
def prettyAt (level : Nat) : Json → String
  | arr [] => "[]"
  | arr (x :: xs) => "[" ++ prettyItems (level + 1) (x :: xs) ++ newLine level ++ "]"
  | obj [] => "\x7b\x7d"
  | obj (f :: fs) => "\x7b" ++ prettyFields (level + 1) (f :: fs) ++ newLine level ++ "\x7d"
  | x => x.leaf

/-- Items on lines of their own. -/
def prettyItems (level : Nat) : List Json → String
  | [] => ""
  | [x] => newLine level ++ x.prettyAt level
  | x :: xs => newLine level ++ x.prettyAt level ++ "," ++ prettyItems level xs

/-- Fields on lines of their own. -/
def prettyFields (level : Nat) : List (String × Json) → String
  | [] => ""
  | [(k, x)] => newLine level ++ quoted k ++ ": " ++ x.prettyAt level
  | (k, x) :: xs =>
    newLine level ++ quoted k ++ ": " ++ x.prettyAt level ++ "," ++ prettyFields level xs

end

/-- The text with items on their own lines. -/
def pretty (x : Json) : String :=
  x.prettyAt 0

end TypedNotation.Json
