import TypedNotation.Double.Shortest

/-!
# Notations of doubles

A notation lays the shortest digits of a double out as text. Numbers whose leading digit stands at
a power of ten from `leastPower` to `15` are written positionally, with at least one digit on each
side of the point; all others as one digit, an optional point with the rest, and a power of ten.
-/

namespace TypedNotation

/-- The choices of a notation for doubles. -/
structure DoubleNotation where
  /-- The least power of ten of a leading digit that is written positionally. -/
  leastPower : Int
  /-- Whether a positive power of ten carries a plus sign. -/
  plusSign : Bool
  /-- Which of two shortest decimals is written when both are equally near. -/
  tie : Double.Tie

namespace Double

/-- Digits with a point, the leading one standing at a power of ten. -/
def positional (digits : List Char) (power : Int) : List Char :=
  if power < 0 then
    ['0', '.'] ++ List.replicate (-power - 1).toNat '0' ++ digits
  else
    let whole := digits.take (power.toNat + 1)
    let places := digits.drop (power.toNat + 1)
    whole ++ List.replicate (power.toNat + 1 - whole.length) '0' ++ ['.']
      ++ (if places.isEmpty then ['0'] else places)

/-- One digit, a point before the others, and the power of ten. -/
def scientific (plusSign : Bool) (digits : List Char) (power : Int) : List Char :=
  let places := digits.drop 1
  let sign := if power < 0 then ['-'] else if plusSign then ['+'] else []
  digits.take 1 ++ (if places.isEmpty then [] else '.' :: places) ++ ['e'] ++ sign
    ++ Nat.toDigits 10 power.natAbs

/-- The text of a finite magnitude. -/
def magnitudeText (style : DoubleNotation) (magnitude : Nat) : List Char :=
  if magnitude = 0 then ['0', '.', '0']
  else
    let d := shortest style.tie magnitude
    let digits := Nat.toDigits 10 d.digits
    let power := d.exponent + digits.length - 1
    if style.leastPower ≤ power ∧ power < 16 then positional digits power
    else scientific style.plusSign digits power

/-- The text of a double in a notation. -/
def text (style : DoubleNotation) (x : Double) : String :=
  if x.isNaN then "NaN"
  else
    let body := if x.isFinite then magnitudeText style x.magnitude else ['i', 'n', 'f']
    String.ofList (if x.isNegative then '-' :: body else body)

end Double

namespace DoubleNotation

/-- Documents and listings write numbers below `1e-4` and from `1e16` on with a power of ten, and
the larger of two decimals equally near. -/
def document : DoubleNotation :=
  ⟨-4, false, .larger⟩

/-- JSON output writes numbers below `1e-5` and from `1e16` on with a signed power of ten, and the
even one of two decimals equally near. -/
def json : DoubleNotation :=
  ⟨-5, true, .even⟩

end DoubleNotation

end TypedNotation
