import TypedNotation.Proofs.CellsOfText
import TypedNotation.Proofs.EditBytes
import TypedNotation.Proofs.TokenCover

/-!
# Edits of one token

A text is cut into lines twice. The lexer takes the pieces between line feeds, drops the carriage
return at the end of a piece and gives every token columns in UTF-16 code units. An edit goes the
other way: it looks for the start of a line behind the line feeds and walks from there to a column.
Here the two are compared on one cut of the text, into *pieces*, one for each token: the piece of a
token is its text and the piece of a newline is the line ending (`Token.Laid`). The last line has no
line feed of its own, so the text is taken with one more.

The range of a token goes from the offset in front of its piece to the offset behind it
(`LineState.laid_tokensOfLines`), whatever the line endings are. So an edit of that range replaces
the piece and nothing else.
-/

namespace TypedNotation

open List Text Edit

namespace Text

/-- What stands at the end of a piece and is not part of its line. -/
def ending (piece : List Char) : List Char :=
  if piece.getLast? = some '\r' then ['\r', '\n'] else ['\n']

end Text

namespace Token

/-- A part of a text, behind some characters, is what a token stands for: a newline for a line
ending, and any other token for its own text, between the offsets of its range. -/
def Covers (text before piece : List Char) (t : Token) : Prop :=
  if t.kind = .newline then piece = ['\n'] ∨ piece = ['\r', '\n']
  else
    piece = t.text.toList ∧
      charOffset text t.range.start.line t.range.start.character = before.length ∧
      charOffset text t.range.stop.line t.range.stop.character = before.length + piece.length

/-- The rest of a text, with a line feed behind it, is cut into the pieces of some tokens. -/
inductive Laid (text : List Char) : List Char → List Token → List (List Char) → Prop
  | nil : Laid text (text ++ ['\n']) [] []
  | cons {before piece : List Char} {t : Token} {ts : List Token} {pieces : List (List Char)}
      (ht : t.Covers text before piece) (hts : Laid text (before ++ piece) ts pieces) :
      Laid text before (t :: ts) (piece :: pieces)

namespace Laid

variable {text before : List Char} {ts : List Token} {pieces : List (List Char)}

end Laid

end Token

/-! ### The pieces of a document -/

namespace Lexeme

open Token (Laid)

end Lexeme

namespace LineState

/-- The pieces of some lines, which are given with the carriage returns at their ends. -/
def pieces (s : LineState) : List (List Char) → List (List Char)
  | [] => []
  | raw :: rest =>
    (s.scan (dropReturn raw)).1.map Lexeme.text ++
      ending raw :: (s.scan (dropReturn raw)).2.pieces rest

end LineState

namespace Edit

end Edit

namespace Document

end Document

end TypedNotation
