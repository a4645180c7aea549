import TypedNotation.Cursor.Trail
import TypedNotation.TypeSpec.Listing

/-!
# Hovering

The type that is wanted of the part under a position, in words, with the range it speaks of. Where
the data goes a way that the type does not know, the last type on the way is shown.
-/

namespace TypedNotation

/-- A text about a range. -/
structure Hover where
  range : Range
  text : String
  deriving DecidableEq, Inhabited

namespace ExpectedType

/-- What is wanted, in words. -/
def listing (r : Resolver) : ExpectedType → String
  | spec s => s.listing r
  | block b => b.listing r
  | unit => "#unit"

end ExpectedType

namespace Hover

/-- The type wanted at a position of a document of a type. -/
def at? (r : Resolver) (data : Data) (spec : TypeSpec) (p : Position) : Option Hover :=
  (Trail.to? data p).map fun trail =>
    let walk := trail.walk r spec
    let range :=
      if walk.safeSteps < trail.steps.length then trail.rangeAfter walk.safeSteps else trail.target
    ⟨range, "TYPEOF(<~>" ++ walk.path ++ "): " ++ walk.expected.listing r⟩

end Hover

end TypedNotation
