/-!
# Settings

What a user may choose: how many findings of a document are shown, whether the layout of a document
is looked at and how wide an indent is, and how long after a change, and how often, the documents of
a workspace are looked at again.
-/

namespace TypedNotation

/-- Choices about layout. -/
structure LayoutSettings where
  /-- Whether the layout is looked at. -/
  enabled : Bool := true
  /-- The columns of one level of indent, below `2 ^ 32`. -/
  indentWidth : Nat := 4
  deriving DecidableEq, Inhabited

/-- Choices about refreshing, in milliseconds. -/
structure RefreshSettings where
  /-- The delay after the first change. -/
  initialDelay : Nat := 20
  /-- The delay after a refresh, when more changes came. -/
  repeatDelay : Nat := 500
  deriving DecidableEq, Inhabited

/-- All choices. -/
structure Settings where
  /-- The findings of one document that are kept. -/
  maxProblems : Nat := 1000
  layout : LayoutSettings := {}
  refresh : RefreshSettings := {}
  deriving DecidableEq, Inhabited

end TypedNotation
