import TypedNotation.Chunk.Builder
import TypedNotation.Data.OfChunks
import TypedNotation.Text.Lines

/-!
# Documents

A document is a text with all that can be said of it before any type is involved: its tokens, its
chunks, its data unless something fatal was found, and the findings.
-/

namespace TypedNotation

/-- A text and its structure. -/
structure Document where
  text : String
  tokens : List Token
  chunks : List Chunk
  /-- Absent if something fatal was found. -/
  data : Option Data
  report : Report

namespace Document

/-- The lines of a text. -/
def linesOf (text : String) : List (List Char) :=
  Text.lines text.toList

/-- The tokens of a text. -/
def tokensOf (text : String) : List Token :=
  Token.lex .standard (linesOf text)

/-- The structure of a text. -/
def parse (text : String) : Document :=
  let tokens := tokensOf text
  let (chunks, found) := Chunk.ofTokens tokens
  let (data, report) := Data.ofChunks chunks found
  ⟨text, tokens, chunks, data, report⟩

/-- The value of a text, if it has one. -/
def value? (text : String) : Option Value :=
  (parse text).data.map Data.value

/-- The lines of a document. -/
def lines (d : Document) : List (List Char) :=
  linesOf d.text

theorem tokens_parse (text : String) : (parse text).tokens = tokensOf text := by
  rw [parse]

theorem lines_parse (text : String) : (parse text).lines = linesOf text := by
  rw [parse, lines]

/-- The token that covers a position. -/
def tokenAt? (d : Document) (p : Position) : Option Token :=
  d.tokens.find? (·.range.contains p)

end Document

end TypedNotation
