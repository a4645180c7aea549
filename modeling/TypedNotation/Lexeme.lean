import TypedNotation.BlockKind
import TypedNotation.Text.Blank
import TypedNotation.Text.Units

/-!
# Lexemes

A line of a document is cut into *lexemes*: runs of blanks, comments, brackets, separators, keys,
tags, literals and the parts of strings. It depends on the lines before it only through a
`LineState`, the blocks still open and whether a string or a comment is still running.

`LineState.scan` cuts a line. Each step says how many characters after the first belong to the
lexeme, so a lexeme is never empty, and the lexemes of a line, put together, are the line
(`scan_text`).

A lexeme carries the names of its grammar scopes, outermost first: the document, every open block,
the string it is part of, and its own category.
-/

namespace TypedNotation

/-- What a lexeme is. -/
inductive Category where
  | blank
  | lineComment
  | blockComment
  | quote (side : Side)
  | stringText
  | escape
  | badEscape
  | bracket (kind : BlockKind) (side : Side)
  | comma
  | colon
  | tag
  | key
  | integer
  | float
  | boolean
  | illegal
  deriving DecidableEq, Inhabited

namespace Category

/-- The scope of running string text, which every part of a string lies in. -/
def stringScope : String :=
  "string.quoted.double.thrd"

/-- The grammar scope of a category. -/
def scope : Category → String
  | blank => "whitespace.thrd"
  | lineComment => "comment.line.double-slash.thrd"
  | blockComment => "comment.block.thrd"
  | quote .opening => "punctuation.string.begin.thrd"
  | quote .closing => "punctuation.string.end.thrd"
  | stringText => stringScope
  | escape => "constant.character.escape.string.thrd"
  | badEscape => "invalid.illegal.escape.thrd"
  | bracket kind .opening => "punctuation.block.begin." ++ kind.scopeName ++ ".thrd"
  | bracket kind .closing => "punctuation.block.end." ++ kind.scopeName ++ ".thrd"
  | comma => "punctuation.separator.list.thrd"
  | colon => "punctuation.separator.keyValue.thrd"
  | tag => "support.class.enum.name.thrd"
  | key => "variable.name.thrd"
  | integer => "constant.numeric.integer.thrd"
  | float => "constant.numeric.float.thrd"
  | boolean => "constant.language.boolean.thrd"
  | illegal => "invalid.illegal.thrd"

/-- Whether a category is a part of a string. -/
def inString : Category → Bool
  | quote _ | stringText | escape | badEscape => true
  | _ => false

end Category

/-- A cut of a line. -/
structure Lexeme where
  text : List Char
  category : Category
  /-- The blocks around the lexeme, innermost first. -/
  blocks : List BlockKind

namespace Lexeme

/-- The scope of an open block. -/
def blockScope (kind : BlockKind) : String :=
  "meta.block." ++ kind.scopeName ++ ".thrd"

/-- The grammar scopes of a lexeme, outermost first. -/
def scopes (x : Lexeme) : List String :=
  let own :=
    if !x.category.inString then [x.category.scope]
    else if x.category.scope = Category.stringScope then [Category.stringScope]
    else [Category.stringScope, x.category.scope]
  "source.thrd" :: x.blocks.reverse.map blockScope ++ own

end Lexeme

/-! ### Lengths of literals -/

namespace Scan

/-- Characters of names and tags. -/
def isNameChar (c : Char) : Bool :=
  c.isAlphanum || c == '_'

/-- Whether a text starts with a decimal digit. -/
def startsWithDigit : List Char → Bool
  | c :: _ => c.isDigit
  | [] => false

/-- Length of the run of digits at the start of a text. An underscore belongs to the run when a
digit follows it. -/
def digitRun : List Char → Nat
  | [] => 0
  | c :: cs => if c.isDigit || (c == '_' && startsWithDigit cs) then digitRun cs + 1 else 0

/-- Length of the part of a number behind the point, the point included. -/
def fractionLength : List Char → Nat
  | '.' :: cs => if startsWithDigit cs then digitRun cs + 1 else 0
  | _ => 0

/-- Length of the power of ten of a number, its mark included. -/
def powerLength : List Char → Nat
  | c :: cs =>
    if c == 'e' || c == 'E' then
      match cs with
      | '+' :: ds | '-' :: ds => if startsWithDigit ds then digitRun ds + 2 else 0
      | ds => if startsWithDigit ds then digitRun ds + 1 else 0
    else 0
  | [] => 0

/-- Length of the number at the start of a text behind its sign, and whether it is a float. -/
def numberLength (cs : List Char) : Nat × Bool :=
  let whole := digitRun cs
  let fraction := fractionLength (cs.drop whole)
  let power := powerLength (cs.drop (whole + fraction))
  (whole + fraction + power, fraction + power != 0)

/-- Whether a text starts with a number of hexadecimal digits. -/
def startsWithHex (n : Nat) (cs : List Char) : Bool :=
  let digits := cs.take n
  digits.length == n
    && digits.all fun c => c.isDigit || ('a' ≤ c && c ≤ 'f') || ('A' ≤ c && c ≤ 'F')

/-- Length of the escape behind a backslash, if it is one. -/
def escapeLength? : List Char → Option Nat
  | [] => none
  | c :: cs =>
    if c == 'n' || c == 'r' || c == 't' || c == '\\' || c == '"' then some 1
    else if c == 'x' && startsWithHex 2 cs then some 3
    else if c == 'u' && startsWithHex 4 cs then some 5
    else none

/-- Length of a text up to and including the mark that ends a block comment. -/
def commentLength? : List Char → Option Nat
  | [] => none
  | c :: cs =>
    match c, cs with
    | '*', '/' :: _ => some 2
    | _, cs => (commentLength? cs).map (· + 1)

/-- Whether a colon follows after spaces and tabs. -/
def colonFollows (cs : List Char) : Bool :=
  (cs.dropWhile fun c => c == ' ' || c == '\t').head? == some ':'

end Scan

/-! ### Scanning a line -/

/-- What runs on across characters: plain text, a string or a block comment. -/
inductive Mode where
  | plain
  | string
  | comment
  deriving DecidableEq, Inhabited

/-- What one line leaves to the next. -/
structure LineState where
  /-- The open blocks, innermost first. -/
  blocks : List BlockKind := []
  mode : Mode := .plain
  deriving DecidableEq, Inhabited

/-- What is known before a character of a line. -/
structure Scanner extends LineState where
  /-- Whether the last lexeme that is not blank was a key. -/
  afterKey : Bool := false
  deriving DecidableEq

namespace Scanner

/-- One lexeme: its category, how many characters follow its first one, and what is known after. -/
structure Step where
  category : Category
  extra : Nat
  blocks : List BlockKind
  next : Scanner

/-- A step that keeps the open blocks. -/
def plainStep (s : Scanner) (category : Category) (extra : Nat) (mode : Mode := .plain)
    (afterKey : Bool := false) : Step :=
  ⟨category, extra, s.blocks, ⟨⟨s.blocks, mode⟩, afterKey⟩⟩

/-- The step at a closing bracket: it ends the innermost block of its kind and every block inside
that one. With no such block it is out of place. -/
def closeStep (s : Scanner) (kind : BlockKind) : Step :=
  match s.blocks.dropWhile (· != kind) with
  | [] => s.plainStep .illegal 0
  | found :: outer => ⟨.bracket kind .closing, 0, found :: outer, ⟨⟨outer, .plain⟩, false⟩⟩

/-- The step at a word. -/
def wordStep (s : Scanner) (c : Char) (cs : List Char) : Step :=
  let extra := (cs.takeWhile Scan.isNameChar).length
  let word := String.ofList (c :: cs.take extra)
  if Scan.colonFollows (cs.drop extra) then s.plainStep .key extra .plain true
  else if word = "true" || word = "false" then s.plainStep .boolean extra
  else s.plainStep .illegal extra

/-- The step in plain text. -/
def plain (s : Scanner) (c : Char) (cs : List Char) : Step :=
  if Text.isBlank c then s.plainStep .blank (Text.indent cs).length .plain s.afterKey
  else if c == '/' && cs.head? == some '/' then s.plainStep .lineComment cs.length
  else if c == '/' && cs.head? == some '*' then
    match Scan.commentLength? (cs.drop 1) with
    | some n => s.plainStep .blockComment (n + 1)
    | none => s.plainStep .blockComment cs.length .comment
  else if c == '"' then s.plainStep (.quote .opening) 0 .string
  else if c == ',' then s.plainStep .comma 0
  else if c == ':' && s.afterKey then s.plainStep .colon 0
  else if c == '#' then
    let extra := (cs.takeWhile Scan.isNameChar).length
    s.plainStep (if extra = 0 then .illegal else .tag) extra
  else if c.isDigit then
    let (length, isFloat) := Scan.numberLength (c :: cs)
    s.plainStep (if isFloat then .float else .integer) (length - 1)
  else if c == '-' && Scan.startsWithDigit cs then
    let (length, isFloat) := Scan.numberLength cs
    s.plainStep (if isFloat then .float else .integer) length
  else if c.isAlpha || c == '_' then s.wordStep c cs
  else
    match BlockKind.ofOpenChar? c, BlockKind.ofCloseChar? c with
    | some kind, _ =>
      ⟨.bracket kind .opening, 0, kind :: s.blocks, ⟨⟨kind :: s.blocks, .plain⟩, false⟩⟩
    | none, some kind => s.closeStep kind
    | none, none => s.plainStep .illegal 0

/-- The step inside a string. -/
def string (s : Scanner) (c : Char) (cs : List Char) : Step :=
  if c == '"' then s.plainStep (.quote .closing) 0 .plain s.afterKey
  else if c == '\\' then
    match Scan.escapeLength? cs with
    | some n => s.plainStep .escape n .string s.afterKey
    | none => s.plainStep .badEscape (cs.take 1).length .string s.afterKey
  else
    s.plainStep .stringText (cs.takeWhile fun d => d != '"' && d != '\\').length .string s.afterKey

/-- The step inside a block comment. -/
def comment (s : Scanner) (c : Char) (cs : List Char) : Step :=
  match Scan.commentLength? (c :: cs) with
  | some n => s.plainStep .blockComment (n - 1) .plain s.afterKey
  | none => s.plainStep .blockComment cs.length .comment s.afterKey

/-- The step at a character. -/
def step (s : Scanner) (c : Char) (cs : List Char) : Step :=
  match s.mode with
  | .plain => s.plain c cs
  | .string => s.string c cs
  | .comment => s.comment c cs

/-- The lexemes of the rest of a line, and what is known after them. -/
def scan (s : Scanner) : List Char → List Lexeme × Scanner
  | [] => ([], s)
  | c :: cs =>
    let t := s.step c cs
    let (more, last) := t.next.scan (cs.drop t.extra)
    (⟨c :: cs.take t.extra, t.category, t.blocks⟩ :: more, last)
termination_by cs => cs.length
decreasing_by simp only [List.length_drop, List.length_cons]; omega

/-- The lexemes, put together, are what was scanned. -/
theorem scan_text (s : Scanner) (cs : List Char) : (s.scan cs).1.flatMap (·.text) = cs := by
  fun_induction scan s cs with
  | case1 => rfl
  | case2 s c cs t more last h ih =>
    rw [h] at ih
    simp only [List.flatMap_cons, ih, List.cons_append, List.take_append_drop]

/-- No lexeme is empty. -/
theorem text_ne_nil_of_mem_scan {s : Scanner} {cs : List Char} {x : Lexeme}
    (h : x ∈ (s.scan cs).1) : x.text ≠ [] := by
  fun_induction scan s cs with
  | case1 => simp at h
  | case2 s c cs t more last hr ih =>
    rw [hr] at ih
    rcases List.mem_cons.1 h with rfl | hm
    · simp
    · exact ih hm

end Scanner

namespace LineState

/-- The lexemes of a line, and what the line leaves to the next. -/
def scan (s : LineState) (line : List Char) : List Lexeme × LineState :=
  let (lexemes, last) := Scanner.scan ⟨s, false⟩ line
  (lexemes, last.toLineState)

/-- The number of open blocks. -/
def depth (s : LineState) : Nat :=
  s.blocks.length

/-- Cutting a line loses nothing. -/
theorem scan_text (s : LineState) (line : List Char) : (s.scan line).1.flatMap (·.text) = line :=
  Scanner.scan_text ⟨s, false⟩ line

end LineState

end TypedNotation
