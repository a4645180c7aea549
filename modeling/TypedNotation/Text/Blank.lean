/-!
# Blank characters

A character is *blank* when Unicode gives it the property `White_Space`: the ASCII controls from
tab to carriage return, the space, and the wider spaces and line separators beyond ASCII. Every
place that trims, skips or measures blanks uses this one class, so a no-break space indents a line
and a zero-width space does not.

Texts are handled as lists of characters here; `trimStart` and `trimEnd` drop the blanks of one
end and keep everything else.
-/

namespace TypedNotation.Text

/-- Characters with the Unicode property `White_Space`. -/
def isBlank (c : Char) : Bool :=
  let n := c.toNat
  (9 ≤ n && n ≤ 13) || n == 0x20 || n == 0x85 || n == 0xA0 || n == 0x1680
    || (0x2000 ≤ n && n ≤ 0x200A) || n == 0x2028 || n == 0x2029 || n == 0x202F || n == 0x205F
    || n == 0x3000

/-- The text without its leading blanks. -/
def trimStart (cs : List Char) : List Char :=
  cs.dropWhile isBlank

/-- The text without its trailing blanks. -/
def trimEnd (cs : List Char) : List Char :=
  (cs.reverse.dropWhile isBlank).reverse

/-- The leading blanks of a text. -/
def indent (cs : List Char) : List Char :=
  cs.takeWhile isBlank

/-- A text of blanks only; the empty text is one. -/
def allBlank (cs : List Char) : Bool :=
  cs.all isBlank

theorem indent_append_trimStart (cs : List Char) : indent cs ++ trimStart cs = cs :=
  List.takeWhile_append_dropWhile

end TypedNotation.Text
