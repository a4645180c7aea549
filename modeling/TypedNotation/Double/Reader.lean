import TypedNotation.Double

/-!
# Reading decimals

A decimal is an optional sign, digits with an optional point among or around them, and an optional
power of ten; at least one digit stands in front of the power. The names of infinity and of
not-a-number are read in any case of letters. Every decimal is read as the nearest double.
-/

namespace TypedNotation.Double

/-- The exponent after the mark of a power of ten, with nothing behind it. -/
def exponent? : List Char → Option Int
  | [] => some 0
  | c :: cs => if c = 'e' ∨ c = 'E' then Numeral.signedValue? cs else none

/-- The magnitude of an unsigned decimal. -/
def unsigned? (cs : List Char) : Option Nat :=
  let whole := cs.takeWhile Char.isDigit
  let rest := cs.dropWhile Char.isDigit
  let (places, power) := match rest with
    | '.' :: rest => (rest.takeWhile Char.isDigit, rest.dropWhile Char.isDigit)
    | rest => ([], rest)
  if whole.isEmpty && places.isEmpty then none
  else (exponent? power).map fun e =>
    nearestDecimal (Numeral.value (whole ++ places)) (e - places.length)

/-- The magnitude of a name: infinity or not-a-number. -/
def named? (cs : List Char) : Option Nat :=
  let name := String.ofList (cs.map Char.toLower)
  if name = "inf" || name = "infinity" then some infinity
  else if name = "nan" then some (infinity + twoTo 51)
  else none

/-- The double that a text denotes. -/
def read? (cs : List Char) : Option Double :=
  let (negative, body) := match cs with
    | '-' :: rest => (true, rest)
    | '+' :: rest => (false, rest)
    | rest => (false, rest)
  (unsigned? body <|> named? body).map (ofMagnitude negative)

end TypedNotation.Double
