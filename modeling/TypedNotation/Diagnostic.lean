import TypedNotation.Position

/-!
# Diagnostics

A diagnostic names the rule that was broken, where, how severely, and, if one edit mends it, that
edit. A *fatal* diagnostic says that the document has no data tree: interpretation stops there.

A `Report` is what one pass over a document has found, in the order in which it was found. It only
grows, and `Report.canContinue` holds as long as nothing fatal was found.
-/

namespace TypedNotation

/-- How much a diagnostic matters. -/
inductive Severity where
  | error
  | warning
  | information
  | hint
  deriving DecidableEq, Inhabited

namespace Severity

/-- The name by which data formats know the severity. -/
def name : Severity → String
  | error => "error"
  | warning => "warning"
  | information => "information"
  | hint => "hint"

/-- The label in front of a printed message. -/
def label : Severity → String
  | error => "error"
  | warning => "warning"
  | information => "info"
  | hint => "hint"

/-- The number by which an editor knows the severity. -/
def code : Severity → Nat
  | error => 1
  | warning => 2
  | information => 3
  | hint => 4

/-- Every severity, the gravest first. -/
def all : List Severity :=
  [error, warning, information, hint]

/-- The severity of a name. -/
def ofName? (s : String) : Option Severity :=
  all.find? (·.name == s)

end Severity

/-- The replacement of a range by a text. -/
structure Edit where
  range : Range
  newText : String
  deriving DecidableEq, Inhabited

namespace Edit

/-- Puts a text in at a position. -/
def insert (position : Position) (text : String) : Edit :=
  ⟨.point position, text⟩

/-- Takes a range out. -/
def delete (range : Range) : Edit :=
  ⟨range, ""⟩

end Edit

/-- A second place that helps to understand a diagnostic. -/
structure Related where
  range : Range
  message : String
  deriving DecidableEq, Inhabited

namespace Diagnostic

/-- The rule that a diagnostic reports. -/
inductive Kind where
  | invalidToken
  | bracketMismatch
  | unexpectedEndOfInput
  | unterminatedString
  | numberOutOfRange
  | expectedSeparator
  | expectedKey
  | expectedValue
  | keyInListLike
  | duplicateKey
  | unnecessaryComma
  | illegalTopLevel
  | dataExpected
  | endOfFileExpected
  | typeMismatch
  | expectedEnum
  | unknownEnumTag
  | unitMismatch
  | missingProperty
  | unexpectedProperty
  | tooManyElements
  | tooFewElements
  | unresolvedReference
  | typeResolution
  | trailingWhitespace
  | indentation
  | padding
  | lineBreak
  deriving DecidableEq, Inhabited

namespace Kind

/-- The name of the rule, as listings and editors show it. -/
def name : Kind → String
  | invalidToken => "invalid-token"
  | bracketMismatch => "bracket-mismatch"
  | unexpectedEndOfInput => "unexpected-end-of-input"
  | unterminatedString => "unterminated-string"
  | numberOutOfRange => "number-out-of-range"
  | expectedSeparator => "expected-separator"
  | expectedKey => "expected-key"
  | expectedValue => "expected-value"
  | keyInListLike => "key-in-list-like"
  | duplicateKey => "duplicate-key"
  | unnecessaryComma => "unnecessary-comma"
  | illegalTopLevel => "illegal-top-level"
  | dataExpected => "data-expected"
  | endOfFileExpected => "end-of-file-expected"
  | typeMismatch => "type-mismatch"
  | expectedEnum => "expected-enum"
  | unknownEnumTag => "unknown-enum-tag"
  | unitMismatch => "unit-mismatch"
  | missingProperty => "missing-property"
  | unexpectedProperty => "unexpected-property"
  | tooManyElements => "too-many-elements"
  | tooFewElements => "too-few-elements"
  | unresolvedReference => "unresolved-reference"
  | typeResolution => "type-resolution"
  | trailingWhitespace => "trailing-whitespace"
  | indentation => "indentation"
  | padding => "padding"
  | lineBreak => "line-break"

/-- Every rule. -/
def all : List Kind :=
  [invalidToken, bracketMismatch, unexpectedEndOfInput, unterminatedString, numberOutOfRange,
   expectedSeparator, expectedKey, expectedValue, keyInListLike, duplicateKey, unnecessaryComma,
   illegalTopLevel, dataExpected, endOfFileExpected, typeMismatch, expectedEnum, unknownEnumTag,
   unitMismatch, missingProperty, unexpectedProperty, tooManyElements, tooFewElements,
   unresolvedReference, typeResolution, trailingWhitespace, indentation, padding, lineBreak]

/-- The rule of a name. -/
def ofName? (s : String) : Option Kind :=
  all.find? (·.name == s)

end Kind

end Diagnostic

/-- A broken rule, with the edit that mends it if there is one. -/
structure Diagnostic where
  kind : Diagnostic.Kind
  range : Range
  message : String
  severity : Severity
  fatal : Bool := false
  fix : Option Edit := none
  related : List Related := []
  deriving DecidableEq, Inhabited

namespace Diagnostic

/-- An error that leaves the rest of the document readable. -/
def error (kind : Kind) (range : Range) (message : String) : Diagnostic :=
  { kind, range, message, severity := .error }

/-- An error after which the document has no data tree. -/
def fatalError (kind : Kind) (range : Range) (message : String) : Diagnostic :=
  { kind, range, message, severity := .error, fatal := true }

/-- A matter of style. -/
def warning (kind : Kind) (range : Range) (message : String) : Diagnostic :=
  { kind, range, message, severity := .warning }

/-- The diagnostic with an edit that mends it. -/
def withFix (d : Diagnostic) (edit : Edit) : Diagnostic :=
  { d with fix := some edit }

/-- Whether the diagnostic is an error. -/
def isError (d : Diagnostic) : Bool :=
  d.severity == .error

end Diagnostic

/-- What a pass over a document has found, in order. -/
structure Report where
  diagnostics : List Diagnostic := []
  deriving DecidableEq, Inhabited

namespace Report

/-- The report with one more finding. -/
def add (r : Report) (d : Diagnostic) : Report :=
  ⟨r.diagnostics ++ [d]⟩

/-- The report followed by another. -/
def merge (r other : Report) : Report :=
  ⟨r.diagnostics ++ other.diagnostics⟩

/-- Whether nothing fatal was found. -/
def canContinue (r : Report) : Bool :=
  r.diagnostics.all fun d => !d.fatal

/-- The edits that mend what was found, in order. -/
def fixes (r : Report) : List Edit :=
  r.diagnostics.filterMap (·.fix)

@[simp] theorem canContinue_add (r : Report) (d : Diagnostic) :
    (r.add d).canContinue = (r.canContinue && !d.fatal) := by
  simp [canContinue, add]

@[simp] theorem canContinue_merge (r other : Report) :
    (r.merge other).canContinue = (r.canContinue && other.canContinue) := by
  simp [canContinue, merge]

end Report

end TypedNotation
