import TypedNotation.Double

/-!
# Shortest decimals

Every finite double is written with the fewest significant digits that read back as the same double,
and of two decimals of that length the nearer one is taken. When both are equally near, a `Tie` says
which.

`shortest` tries one digit, two digits and so on. With `k` digits only the neighbours of the exact
value on the grid of `k`-digit decimals can be the answer; each is read back by `nearestDecimal`. A
double has at most 767 significant digits, hence the search ends.
-/

namespace TypedNotation.Double

/-- Which of two neighbouring decimals is taken for a number in their middle. -/
inductive Tie where
  | larger
  /-- The one whose last digit is even. -/
  | even
  deriving DecidableEq, Inhabited

/-- Whether the smaller one of two neighbours is taken, given its digits. -/
def Tie.takesBelow : Tie → Nat → Bool
  | larger, _ => false
  | even, below => below % 2 == 0

/-- A positive decimal `digits * 10 ^ exponent`. -/
structure Decimal where
  digits : Nat
  exponent : Int
  deriving DecidableEq

/-- The decimal without the zeros that end its digits. -/
def Decimal.trim : Nat → Decimal → Decimal
  | 0, d => d
  | fuel + 1, d =>
    if d.digits ≠ 0 ∧ d.digits % 10 = 0 then trim fuel ⟨d.digits / 10, d.exponent + 1⟩ else d

/-- The power of ten of the leading digit of a positive magnitude. -/
def leadingPower (magnitude : Nat) : Int :=
  ((Nat.toDigits 10 (units magnitude * Numeral.tenTo 400 / twoTo 1074)).length : Int) - 401

/-- The number of whole steps of `10 ^ exponent` in a magnitude. -/
def steps (magnitude : Nat) (exponent : Int) : Nat :=
  if 0 ≤ exponent then units magnitude / (twoTo 1074 * Numeral.tenTo exponent.toNat)
  else units magnitude * Numeral.tenTo (-exponent).toNat / twoTo 1074

/-- How a magnitude compares with the middle of step `n` of `10 ^ exponent`. -/
def compareMiddle (magnitude : Nat) (exponent : Int) (n : Nat) : Ordering :=
  if 0 ≤ exponent then
    compare (2 * units magnitude) ((2 * n + 1) * twoTo 1074 * Numeral.tenTo exponent.toNat)
  else compare (2 * units magnitude * Numeral.tenTo (-exponent).toNat) ((2 * n + 1) * twoTo 1074)

/-- Whether a magnitude in step `n` of `10 ^ exponent` goes to the lower end of the step. -/
def goesBelow (tie : Tie) (magnitude : Nat) (exponent : Int) (n : Nat) : Bool :=
  match compareMiddle magnitude exponent n with
  | .lt => true
  | .eq => tie.takesBelow n
  | .gt => false

/-- The decimal of `k` digits that reads back as the magnitude, if there is one. -/
def withDigits? (tie : Tie) (magnitude : Nat) (power : Int) (k : Nat) : Option Decimal :=
  let exponent := power + 1 - k
  let below := steps magnitude exponent
  let above := below + 1
  let readsBelow := nearestDecimal below exponent == magnitude
  let readsAbove := nearestDecimal above exponent == magnitude
  if readsBelow && (!readsAbove || goesBelow tie magnitude exponent below) then
    some ⟨below, exponent⟩
  else if readsAbove then some ⟨above, exponent⟩
  else none

/-- The first decimal of `k`, `k + 1`, … digits that reads back as the magnitude. -/
def fewestDigits (tie : Tie) (magnitude : Nat) (power : Int) : Nat → Nat → Decimal
  | 0, k => ⟨steps magnitude (power + 1 - k), power + 1 - k⟩
  | fuel + 1, k =>
    match withDigits? tie magnitude power k with
    | some d => d
    | none => fewestDigits tie magnitude power fuel (k + 1)

/-- The shortest decimal of a positive finite magnitude. -/
def shortest (tie : Tie) (magnitude : Nat) : Decimal :=
  (fewestDigits tie magnitude (leadingPower magnitude) 800 1).trim 20

end TypedNotation.Double
