import TypedNotation.Numeral

/-!
# Double precision numbers

A `Double` is a binary64 pattern: a sign, an exponent field of eleven bits and a fraction of
fifty-two. A finite pattern stands for `significand * 2 ^ scale` units of `2 ^ -1074`, so all
arithmetic on it is exact arithmetic of natural numbers.

`Double.nearest num den` is the one rounding rule: the magnitude nearest to `num / den`, a tie going
to the even pattern. Magnitudes are ordered as the numbers they stand for, and a significand that
rounds up to the next power of two carries into the exponent field by itself.
-/

namespace TypedNotation

/-- A binary64 pattern. -/
structure Double where
  bits : UInt64
  deriving DecidableEq, Inhabited

namespace Double

/-- A power of two. -/
def twoTo (n : Nat) : Nat :=
  Nat.pow 2 n

/-- The pattern without its sign. -/
def magnitude (x : Double) : Nat :=
  x.bits.toNat % twoTo 63

/-- Whether the sign bit is set. -/
def isNegative (x : Double) : Bool :=
  twoTo 63 ≤ x.bits.toNat

/-- The magnitude of infinity; patterns above it are not numbers. -/
def infinity : Nat :=
  2047 * twoTo 52

/-- A number, and not an infinity. -/
def isFinite (x : Double) : Bool :=
  x.magnitude < infinity

/-- Not a number. -/
def isNaN (x : Double) : Bool :=
  infinity < x.magnitude

/-- The pattern of a sign and a magnitude. -/
def ofMagnitude (negative : Bool) (magnitude : Nat) : Double :=
  ⟨UInt64.ofNat (if negative then twoTo 63 + magnitude else magnitude)⟩

/-- The binary digits of a magnitude, the leading one of a normal number included. -/
def significand (magnitude : Nat) : Nat :=
  if magnitude < twoTo 52 then magnitude else magnitude % twoTo 52 + twoTo 52

/-- The power of two, above `2 ^ -1074`, that the significand counts. -/
def scale (magnitude : Nat) : Nat :=
  magnitude / twoTo 52 - 1

/-- The number of units of `2 ^ -1074` in a magnitude. -/
def units (magnitude : Nat) : Nat :=
  significand magnitude * twoTo (scale magnitude)

/-- A quotient rounded to the nearest natural number, a tie to the even one. -/
def roundHalfEven (num den : Nat) : Nat :=
  let q := num / den
  let r := num % den
  if 2 * r < den then q
  else if den < 2 * r then q + 1
  else q + q % 2

/-- The magnitude nearest to `num / den`; one too large to represent becomes infinity. -/
def nearest (num den : Nat) : Nat :=
  let n := num * twoTo 1074
  let k := (n / den).log2 - 52
  min (k * twoTo 52 + roundHalfEven n (den * twoTo k)) infinity

/-- The magnitude nearest to `digits * 10 ^ exponent`. Exponents beyond the range of doubles are
settled by the number of digits alone. -/
def nearestDecimal (digits : Nat) (exponent : Int) : Nat :=
  let places : Int := (Nat.toDigits 10 digits).length + exponent
  if digits = 0 || places < -330 then 0
  else if 320 < places then infinity
  else if 0 ≤ exponent then nearest (digits * Numeral.tenTo exponent.toNat) 1
  else nearest digits (Numeral.tenTo (-exponent).toNat)

/-- The largest finite magnitude. -/
def greatest : Nat :=
  infinity - 1

/-- Equality of numbers: the two zeros are equal, and what is not a number equals nothing. -/
def numEq (x y : Double) : Bool :=
  !x.isNaN && !y.isNaN && (x == y || (x.magnitude == 0 && y.magnitude == 0))

end Double

end TypedNotation
