import TypedNotation.Position
import TypedNotation.Scope

/-!
# Tokens

A grammar cuts a line into spans, each with its byte offsets on the line and its scopes, and carries
a state from line to line. `Token.lex` runs a grammar over the lines of a document: every span that
lies on character boundaries of its line becomes a token, with a range in editor columns and its
depth of nesting, and a newline token follows each line.

`Grammar.standard` is the grammar of the data language.
-/

namespace TypedNotation

/-- A cut of a line by byte offsets, with its scopes, outermost first. -/
structure Span where
  start : Nat
  stop : Nat
  scopes : List String
  deriving DecidableEq, Inhabited

/-- A tokenizer of lines that carries a state of type `σ`. -/
structure Grammar (σ : Type) where
  /-- The state before the first line. -/
  initial : σ
  /-- The spans of a line, and the state after it. -/
  spans : σ → List Char → List Span × σ

namespace Lexeme

/-- Adjacent lexemes as spans, the first one starting at an offset. -/
def spansFrom (start : Nat) : List Lexeme → List Span
  | [] => []
  | x :: xs =>
    ⟨start, start + Text.bytes x.text, x.scopes⟩ :: spansFrom (start + Text.bytes x.text) xs

end Lexeme

/-- The grammar of the data language. -/
def Grammar.standard : Grammar LineState where
  initial := {}
  spans state line :=
    let (lexemes, next) := state.scan line
    (Lexeme.spansFrom 0 lexemes, next)

/-- A unit of a document. -/
structure Token where
  kind : TokenKind
  range : Range
  text : String
  /-- The number of blocks around the token, its own block included for a bracket. -/
  depth : Nat
  deriving DecidableEq, Inhabited

namespace Token

/-- Whether the token is a blank or a comment. -/
def isIgnored (t : Token) : Bool :=
  t.kind == .ignored

/-- Whether the token is a blank. -/
def isBlank (t : Token) : Bool :=
  t.isIgnored && Text.allBlank t.text.toList

/-- The token that ends a line of some width. -/
def newline (line width : Nat) : Token :=
  ⟨.newline, ⟨⟨line, width⟩, ⟨line + 1, 0⟩⟩, "\n", 0⟩

/-- The token of a span, if the span lies on character boundaries of its line. -/
def ofSpan? (line : Nat) (text : List Char) (span : Span) : Option Token := do
  let (before, rest) ← Text.splitAtByte? text span.start
  if span.stop < span.start then none
  else
    let (own, _) ← Text.splitAtByte? rest (span.stop - span.start)
    let column := Text.units16 before
    some ⟨.ofScopes span.scopes own, .onLine line column (column + Text.units16 own),
      String.ofList own, Scope.depth span.scopes⟩

/-- The tokens of one line. -/
def ofLine (line : Nat) (text : List Char) (spans : List Span) : List Token :=
  spans.filterMap (ofSpan? line text) ++ [newline line (Text.units16 text)]

/-- The tokens of the lines from a given number on. -/
def lexFrom {σ : Type} (g : Grammar σ) (state : σ) (line : Nat) : List (List Char) → List Token
  | [] => []
  | text :: rest =>
    let (spans, next) := g.spans state text
    ofLine line text spans ++ lexFrom g next (line + 1) rest

/-- The tokens of a document. -/
def lex {σ : Type} (g : Grammar σ) (lines : List (List Char)) : List Token :=
  lexFrom g g.initial 0 lines

end Token

end TypedNotation
