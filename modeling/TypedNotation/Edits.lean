import TypedNotation.Diagnostic
import TypedNotation.Text.Lines
import TypedNotation.Text.Units

/-!
# Editing texts

Positions are turned into character offsets line by line: a column past the end of its line is the
end of the line, before its ending, and a line past the last one is the end of the text.

`Edit.compatible` keeps, of some edits, as many as can be made together: in the order of their
places, an edit that begins inside the one kept before it is dropped, and so is a second insertion
at one point. `Edit.applyAll` makes edits in the order of their places.
-/

namespace TypedNotation

namespace Text

/-- The number of characters of a text in front of a column of a line. -/
def charOffset : List Char → Nat → Nat → Nat
  | cs, 0, column => (columnPrefix (dropReturn (cs.takeWhile (· != '\n'))) column).length
  | [], _ + 1, _ => 0
  | c :: cs, line + 1, column =>
    charOffset cs (if c = '\n' then line else line + 1) column + 1

end Text

namespace Edit

/-- Edits in the order of their places. -/
def inOrder (edits : List Edit) : List Edit :=
  edits.mergeSort fun a b =>
    a.range.start < b.range.start || (a.range.start == b.range.start && a.range.stop ≤ b.range.stop)

/-- Whether an edit cannot be made together with one that precedes it. -/
def conflicts (previous e : Edit) : Bool :=
  e.range.start < previous.range.stop
    || (e.range.start == previous.range.start && e.range.start == e.range.stop
        && previous.range.start == previous.range.stop)

/-- The edits that do not conflict with the one kept before them. -/
def keep (previous : Option Edit) : List Edit → List Edit
  | [] => []
  | e :: rest =>
    if previous.any (conflicts · e) then keep previous rest else e :: keep (some e) rest

/-- The edits that can be made together, in the order of their places. -/
def compatible (edits : List Edit) : List Edit :=
  keep none (inOrder edits)

/-- The text from an offset on after some edits. -/
def splice (text : List Char) (cursor : Nat) : List Edit → List Char
  | [] => text.drop cursor
  | e :: rest =>
    let start := max (Text.charOffset text e.range.start.line e.range.start.character) cursor
    let stop := max (Text.charOffset text e.range.stop.line e.range.stop.character) start
    (text.drop cursor).take (start - cursor) ++ e.newText.toList ++ splice text stop rest

/-- The text after some edits. -/
def applyAll (text : String) (edits : List Edit) : String :=
  String.ofList (splice text.toList 0 (inOrder edits))

end Edit

namespace Report

/-- The edits that mend what was found and can be made together. -/
def fixAll (r : Report) : List Edit :=
  Edit.compatible r.fixes

end Report

end TypedNotation
