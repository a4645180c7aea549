/-!
# Kinds of blocks

A block is a bracketed part of a document. Its kind is told by its brackets: braces hold the
properties of a dict, square brackets the elements of an array, and parentheses the elements of a
tuple.
-/

namespace TypedNotation

/-- The kind of a bracketed block. -/
inductive BlockKind where
  | dict
  | array
  | tuple
  deriving DecidableEq, Inhabited

namespace BlockKind

/-- The name of the kind in messages. -/
def name : BlockKind → String
  | dict => "dict"
  | array => "array"
  | tuple => "tuple"

/-- The name of the kind inside grammar scopes. -/
def scopeName : BlockKind → String
  | dict => "dict"
  | array => "arr"
  | tuple => "tuple"

/-- The bracket that opens a block. -/
def openChar : BlockKind → Char
  | dict => '{'
  | array => '['
  | tuple => '('

/-- The bracket that closes a block. -/
def closeChar : BlockKind → Char
  | dict => '}'
  | array => ']'
  | tuple => ')'

/-- Every kind. -/
def all : List BlockKind :=
  [dict, array, tuple]

/-- The kind that a character opens. -/
def ofOpenChar? (c : Char) : Option BlockKind :=
  all.find? (·.openChar == c)

/-- The kind that a character closes. -/
def ofCloseChar? (c : Char) : Option BlockKind :=
  all.find? (·.closeChar == c)

end BlockKind

/-- The side of a pair of brackets or quotes. -/
inductive Side where
  | opening
  | closing
  deriving DecidableEq, Inhabited

end TypedNotation
