import TypedNotation.Lexeme

/-!
# Token kinds and grammar scopes

The kind of a token is read off the innermost scope of its span. A scope name is a dotted path; it
is read from the left by tables of dotted heads, and what follows the part that decides is free, so
a grammar may refine its scopes without changing what the tokens are.

A scope that no table knows makes a blank text ignored and any other text invalid. `ofScopes_scopes`
says that a scanned lexeme gets the kind of its category.
-/

namespace TypedNotation

/-- The literals that a grammar tells apart. Strings are put together from several tokens. -/
inductive Literal where
  | int
  | float
  | boolean
  deriving DecidableEq, Inhabited

/-- What a token is. -/
inductive TokenKind where
  | key
  | tag
  | literal (literal : Literal)
  | stringText (escape : Bool)
  | quote (side : Side)
  | bracket (kind : BlockKind) (side : Side)
  | comma
  | colon
  | ignored
  /-- A token that stands for nothing; `unknown` if its scope has no meaning at all. -/
  | invalid (unknown : Bool)
  | newline
  deriving DecidableEq, Inhabited

namespace Category

/-- The kind of the tokens of a category. -/
def tokenKind : Category → TokenKind
  | blank | lineComment | blockComment => .ignored
  | quote side => .quote side
  | stringText => .stringText false
  | escape => .stringText true
  | badEscape | illegal => .invalid false
  | bracket kind side => .bracket kind side
  | comma => .comma
  | colon => .colon
  | tag => .tag
  | key => .key
  | integer => .literal .int
  | float => .literal .float
  | boolean => .literal .boolean

end Category

namespace Scope

/-- What is left of a scope behind a head. -/
def strip? (head : String) (scope : List Char) : Option (List Char) :=
  if head.toList.isPrefixOf scope then some (scope.drop head.toList.length) else none

/-- The entry of a table whose head a scope starts with, and the rest of the scope. No head of a
table starts another, so at most one entry fits. -/
def pick? {α : Type} (table : List (String × α)) (scope : List Char) : Option (α × List Char) :=
  table.findSome? fun (head, value) => (strip? head scope).map (value, ·)

/-- The scopes that differ in their first part. -/
inductive Head where
  | tag
  | key
  | separator
  | block
  | quote
  | constant
  | stringText
  | ignored
  | invalid

/-- The first parts of scopes. -/
def heads : List (String × Head) :=
  [("support.class.enum.name.", .tag), ("variable.name.", .key),
   ("punctuation.separator.", .separator), ("punctuation.block.", .block),
   ("punctuation.string.", .quote), ("constant.", .constant), ("string.", .stringText),
   ("comment.", .ignored), ("whitespace.", .ignored), ("invalid.illegal.", .invalid)]

/-- The sides of a pair. -/
def sides : List (String × Side) :=
  [("begin.", .opening), ("end.", .closing)]

/-- The kinds of blocks. -/
def blockKinds : List (String × BlockKind) :=
  [("arr.", .array), ("dict.", .dict), ("tuple.", .tuple)]

/-- The separators. -/
def separators : List (String × TokenKind) :=
  [("keyValue.", .colon), ("list.", .comma)]

/-- The constants. -/
def constants : List (String × TokenKind) :=
  [("character.escape.string.", .stringText true), ("numeric.integer.", .literal .int),
   ("numeric.float.", .literal .float), ("language.boolean.", .literal .boolean)]

/-- The kind that a scope names. -/
def kind? (scope : String) : Option TokenKind := do
  let (head, rest) ← pick? heads scope.toList
  match head with
  | .tag => some .tag
  | .key => some .key
  | .separator => (pick? separators rest).map (·.1)
  | .block =>
    let (side, rest) ← pick? sides rest
    let (kind, _) ← pick? blockKinds rest
    some (.bracket kind side)
  | .quote => (pick? sides rest).map fun (side, _) => .quote side
  | .constant => (pick? constants rest).map (·.1)
  | .stringText => some (.stringText false)
  | .ignored => some .ignored
  | .invalid => some (.invalid false)

/-- The scope of a category names its kind of token. -/
theorem kind?_scope (c : Category) : kind? c.scope = some c.tokenKind := by
  cases c with
  | quote side => cases side <;> decide +kernel
  | bracket kind side => cases kind <;> cases side <;> decide +kernel
  | _ => decide +kernel

/-- Whether a scope is that of an open block. -/
def isBlock (scope : String) : Bool :=
  (strip? "meta.block." scope.toList).isSome

/-- The number of open blocks among some scopes. -/
def depth (scopes : List String) : Nat :=
  (scopes.filter isBlock).length

end Scope

namespace TokenKind

/-- The kind of a span by its innermost scope and its text. -/
def ofScopes (scopes : List String) (text : List Char) : TokenKind :=
  match scopes.getLast?.bind Scope.kind? with
  | some kind => kind
  | none => if Text.allBlank text then .ignored else .invalid true

/-- The kind of a lexeme is that of its category. -/
theorem ofScopes_scopes (x : Lexeme) (text : List Char) :
    ofScopes x.scopes text = x.category.tokenKind := by
  have h : x.scopes.getLast? = some x.category.scope := by
    unfold Lexeme.scopes
    split
    · rw [List.getLast?_append]; rfl
    · split
      next hs => rw [hs, List.getLast?_append]; rfl
      next => rw [List.getLast?_append]; rfl
  simp [ofScopes, h, Scope.kind?_scope]

end TokenKind

end TypedNotation
