import TypedNotation.Document
import TypedNotation.Settings

/-!
# Layout

Four rules on blanks, each with the edit that follows it: no blanks at the end of a line; every line
indented by the number of blocks it is in; no space before a separator and one after it; and the
first and last items of a block that spans several lines on lines of their own.

The inside of a string is never looked at: a line that ends inside one may end in blanks, and a line
that starts inside one has no indent.

The width of an indent is a word of 32 bits. A layout that asks for a wider one is not computed at
all (`Layout.lint?`).
-/

namespace TypedNotation

namespace Data

mutual

/-- The number of blocks around a position, the brackets excluded. -/
def depthAt (p : Position) : Data → Nat
  | primitive .. => 0
  | block b => blockDepthAt p b
  | enum _ _ none _ _ => 0
  | enum _ _ (some b) _ _ => blockDepthAt p b

/-- The number of blocks around a position, from a block inwards. -/
def blockDepthAt (p : Position) : Block Data → Nat
  | ⟨contents, range, _⟩ =>
    if (range.contract 1 1).contains p then
      1 + (match contents with
        | .dict entries _ => entriesDepthAt p entries
        | .array items => itemsDepthAt p items
        | .tuple items => itemsDepthAt p items)
    else 0

/-- The greatest number of blocks around a position in some properties. -/
def entriesDepthAt (p : Position) : List (String × Data) → Nat
  | [] => 0
  | (_, d) :: rest => max (d.depthAt p) (entriesDepthAt p rest)

/-- The greatest number of blocks around a position in some elements. -/
def itemsDepthAt (p : Position) : List Data → Nat
  | [] => 0
  | d :: rest => max (d.depthAt p) (itemsDepthAt p rest)

end

mutual

/-- Every block of a data tree, outer blocks first. -/
def blocks : Data → List (Block Data)
  | primitive .. => []
  | block b => blocksOf b
  | enum _ _ none _ _ => []
  | enum _ _ (some b) _ _ => blocksOf b

/-- A block and every block inside it. -/
def blocksOf : Block Data → List (Block Data)
  | ⟨contents, range, tokens⟩ =>
    ⟨contents, range, tokens⟩ ::
      (match contents with
        | .dict entries _ => entryBlocks entries
        | .array items => itemBlocks items
        | .tuple items => itemBlocks items)

/-- The blocks of some properties. -/
def entryBlocks : List (String × Data) → List (Block Data)
  | [] => []
  | (_, d) :: rest => d.blocks ++ entryBlocks rest

/-- The blocks of some elements. -/
def itemBlocks : List Data → List (Block Data)
  | [] => []
  | d :: rest => d.blocks ++ itemBlocks rest

end

end Data

namespace Layout

/-- A text of spaces, put together from two halves, since an indent may be very wide. -/
def spaces (n : Nat) : String :=
  if n = 0 then ""
  else
    let half := spaces (n / 2)
    if n % 2 = 0 then half ++ half else half ++ half ++ " "
termination_by n
decreasing_by omega

theorem spaces_eq (n : Nat) : spaces n = String.ofList (List.replicate n ' ') := by
  fun_induction spaces n with
  | case1 => rfl
  | case2 n hn half heven ih =>
    have hsum : n / 2 + n / 2 = n := by omega
    simp [half, ih, ← String.toList_inj, List.replicate_append_replicate, hsum]
  | case3 n hn half hodd ih =>
    have hsum : n / 2 + n / 2 + 1 = n := by omega
    simp [half, ih, ← String.toList_inj, List.replicate_append_replicate, ← List.replicate_succ',
      hsum]

/-- A finding with the edit that replaces its range. -/
def warn (kind : Diagnostic.Kind) (range : Range) (message text : String) : Diagnostic :=
  (Diagnostic.warning kind range message).withFix ⟨range, text⟩

/-- A number of spaces in words, or that other blanks were found. -/
def received (blanks : List Char) (width : Nat) : String :=
  if blanks.any (· != ' ') then "non-space whitespace." else s!"{width} spaces"

/-! ### Lines and strings -/

/-- The tokens of each line, without the newlines. -/
def lineTokens : List Token → List (List Token)
  | [] => []
  | t :: rest =>
    if t.kind = .newline then [] :: lineTokens rest
    else
      match lineTokens rest with
      | [] => [[t]]
      | line :: more => (t :: line) :: more

/-- Whether a token is the inside of a string, or its quote on one side. -/
def inString (side : Side) (t : Token) : Bool :=
  match t.kind with
  | .stringText _ => true
  | .quote s => s == side
  | _ => false

/-- A line with its number and its tokens. -/
structure Row where
  number : Nat
  text : List Char
  tokens : List Token

namespace Row

/-- Whether the line starts inside a string. -/
def startsInString (r : Row) : Bool :=
  r.tokens.head?.any (inString .closing)

/-- Whether the line ends inside a string. -/
def endsInString (r : Row) : Bool :=
  r.tokens.getLast?.any (inString .opening)

end Row

/-- The lines of a document with their tokens. -/
def rows (lines : List (List Char)) (tokens : List Token) : List Row :=
  let perLine := lineTokens tokens
  lines.mapIdx fun i text => ⟨i, text, perLine.getD i []⟩

/-! ### The rules -/

/-- No blanks at the end of a line. -/
def trailingBlanks (r : Row) : List Diagnostic :=
  let kept := Text.trimEnd r.text
  if r.endsInString || kept.length = r.text.length then []
  else
    [warn .trailingWhitespace (.onLine r.number (Text.units16 kept) (Text.units16 r.text))
      "Trailing whitespace not allowed." ""]

/-- The indent that is wanted at a position. -/
def indentAt (settings : LayoutSettings) (data : Data) (p : Position) : Nat :=
  settings.indentWidth * data.depthAt p

/-- Every line is indented by its depth. -/
def indentation (settings : LayoutSettings) (data : Data) (r : Row) : List Diagnostic :=
  let indent := Text.indent r.text
  let width := Text.units16 indent
  let expected := indentAt settings data ⟨r.number, width⟩
  if Text.allBlank r.text || r.startsInString || (indent.all (· == ' ') && width = expected) then []
  else
    let found := received indent width
    [warn .indentation (.onLine r.number 0 width)
      s!"Expected indent of {expected} spaces, received {found}" (spaces expected)]

/-- The part of a line between the columns of a range. -/
def textIn (lines : List (List Char)) (range : Range) : List Char :=
  let line := lines.getD range.start.line []
  (Text.columnPrefix line range.stop.character).drop
    (Text.columnPrefix line range.start.character).length

/-- A gap that is not as wide as wanted. -/
def gap (lines : List (List Char)) (range : Range) (expected : Nat) : Diagnostic :=
  let found := received (textIn lines range) (range.stop.character - range.start.character)
  warn .padding range s!"Expected {expected} spaces, received {found}" (spaces expected)

/-- Whether a token is a separator. -/
def isSeparator (t : Token) : Bool :=
  t.kind == .comma || t.kind == .colon

/-- The gaps around a separator on its line. -/
def gapsAround (lines : List (List Char)) (before current after : Token) : List Diagnostic :=
  let line := current.range.start.line
  (if before.range.stop.line = line && before.range.stop != current.range.start then
      [gap lines ⟨before.range.stop, current.range.start⟩ 0]
    else [])
    ++ (if after.range.start.line = line
          && after.range.start.character != current.range.stop.character + 1 then
        [gap lines ⟨current.range.stop, after.range.start⟩ 1]
      else [])

/-- No space before a separator and one after it. -/
def padding (lines : List (List Char)) : List Token → List Diagnostic
  | before :: current :: after :: rest =>
    (if isSeparator current then gapsAround lines before current after else [])
      ++ padding lines (current :: after :: rest)
  | _ => []

/-- Whether a token is neither a newline nor a blank. -/
def isVisible (t : Token) : Bool :=
  t.kind != .newline && !t.isBlank

/-- Whether a token is invalid. -/
def isInvalid (t : Token) : Bool :=
  match t.kind with
  | .invalid _ => true
  | _ => false

/-- A line break that is missing in a range, with the indent of the line after it. -/
def lineBreak (range : Range) (indent : Nat) : Diagnostic :=
  warn .lineBreak range "Expected line break." ("\n" ++ spaces indent)

/-- The last item of a block is not on the line of the closing bracket. -/
def breakBeforeClosing (indent : Position → Nat) (range : Range) (inner : List Token)
    (closing : Token) : List Diagnostic :=
  match inner.getLast? with
  | some last =>
    if last.range.stop.line = range.stop.line then
      [lineBreak ⟨last.range.stop, closing.range.start⟩ (indent range.stop)]
    else []
  | none => []

/-- The first item of a block is not on the line of the opening bracket, though comments may be. -/
def breakAfterOpening (indent : Position → Nat) (range : Range) (opening : Token)
    (inner : List Token) : List Diagnostic :=
  let anchor := ((inner.takeWhile Token.isIgnored).getLast?).getD opening
  match (inner.dropWhile Token.isIgnored).head? with
  | some first =>
    if first.range.start.line = range.start.line then
      [lineBreak ⟨anchor.range.stop, first.range.start⟩ (indent first.range.start)]
    else []
  | none => []

/-- The items between two tokens. -/
def items (tokens : Array Token) (start close : Nat) : List Token :=
  (tokens.extract (start + 1) close).toList.filter fun t => isVisible t && !isInvalid t

/-- The first and last items of a block that spans several lines have lines of their own. -/
def lineBreaks (indent : Position → Nat) (tokens : Array Token) (block : Block Data) :
    List Diagnostic :=
  let start := block.tokens.start
  let close := block.tokens.stop - 1
  match tokens[start]?, tokens[close]? with
  | some opening, some closing =>
    if block.range.isMultiline && start < close then
      let inner := items tokens start close
      breakBeforeClosing indent block.range inner closing
        ++ breakAfterOpening indent block.range opening inner
    else []
  | _, _ => []

/-- All that is found in a document that has data. -/
def lint (settings : LayoutSettings) (lines : List (List Char)) (tokens : List Token)
    (data : Data) : List Diagnostic :=
  let rows := rows lines tokens
  rows.flatMap trailingBlanks
    ++ rows.flatMap (indentation settings data)
    ++ padding lines (tokens.filter isVisible)
    ++ data.blocks.flatMap (lineBreaks (indentAt settings data) tokens.toArray)

/-! ### Indents that are too wide -/

/-- The position at which a line asks for an indent: its first character that is no blank. -/
def rowAsks (r : Row) : List Position :=
  if Text.allBlank r.text || r.startsInString then []
  else [⟨r.number, Text.units16 (Text.indent r.text)⟩]

/-- The position at which a closing bracket asks for an indent. -/
def closingAsks (range : Range) (inner : List Token) : List Position :=
  if inner.getLast?.any (·.range.stop.line == range.stop.line) then [range.stop] else []

/-- The position at which the first item of a block asks for an indent. -/
def openingAsks (range : Range) (inner : List Token) : List Position :=
  ((inner.dropWhile Token.isIgnored).head?.filter
    (·.range.start.line == range.start.line)).toList.map (·.range.start)

/-- The positions at which a block asks for an indent. -/
def blockAsks (tokens : Array Token) (block : Block Data) : List Position :=
  if block.range.isMultiline then
    let inner := items tokens block.tokens.start (block.tokens.stop - 1)
    closingAsks block.range inner ++ openingAsks block.range inner
  else []

/-- The positions at which an indent is asked for. -/
def asks (lines : List (List Char)) (tokens : List Token) (data : Data) : List Position :=
  (rows lines tokens).flatMap rowAsks ++ data.blocks.flatMap (blockAsks tokens.toArray)

/-- Whether all indents that are asked for have 32 bits. -/
def indentsFit (settings : LayoutSettings) (lines : List (List Char)) (tokens : List Token)
    (data : Data) : Bool :=
  (asks lines tokens data).all fun p => indentAt settings data p < UInt32.size

/-- All that is found in a document that has data; nothing at all if an indent is too wide. -/
def lint? (settings : LayoutSettings) (lines : List (List Char)) (tokens : List Token)
    (data : Data) : Option (List Diagnostic) :=
  if indentsFit settings lines tokens data then some (lint settings lines tokens data)
  else none

section

variable {settings : LayoutSettings} {lines : List (List Char)} {tokens : List Token} {data : Data}

theorem indentsFit_iff : indentsFit settings lines tokens data = true ↔
    ∀ p ∈ asks lines tokens data, settings.indentWidth * data.depthAt p < UInt32.size := by
  rw [indentsFit, List.all_eq_true]
  exact forall_congr' fun p => imp_congr_right fun _ => decide_eq_true_iff

theorem lint?_eq_none_iff : lint? settings lines tokens data = none ↔
    ∃ p ∈ asks lines tokens data, UInt32.size ≤ settings.indentWidth * data.depthAt p := by
  simp [lint?, indentsFit_iff]

theorem lint?_eq_some_iff {found : List Diagnostic} :
    lint? settings lines tokens data = some found ↔
      (∀ p ∈ asks lines tokens data, settings.indentWidth * data.depthAt p < UInt32.size) ∧
        lint settings lines tokens data = found := by
  simp [lint?, indentsFit_iff]

end

end Layout

end TypedNotation
