/-!
# Numerals

Decimal numerals as lists of characters: their value, and the value of a signed numeral.
-/

namespace TypedNotation.Numeral

/-- The value of a decimal digit; zero for every other character. -/
def digitValue (c : Char) : Nat :=
  if c.isDigit then c.toNat - '0'.toNat else 0

/-- The value of a run of decimal digits, most significant first. -/
def value (cs : List Char) : Nat :=
  cs.foldl (fun n c => 10 * n + digitValue c) 0

/-- The value of a hexadecimal digit. -/
def hexDigit? (c : Char) : Option Nat :=
  if c.isDigit then some (c.toNat - '0'.toNat)
  else if 'a' ≤ c ∧ c ≤ 'f' then some (c.toNat - 'a'.toNat + 10)
  else if 'A' ≤ c ∧ c ≤ 'F' then some (c.toNat - 'A'.toNat + 10)
  else none

/-- The value of a non-empty run of hexadecimal digits. -/
def hexValue? : List Char → Option Nat
  | [] => none
  | cs => cs.foldlM (fun n c => (hexDigit? c).map (16 * n + ·)) 0

/-- A non-empty run of decimal digits and nothing else. -/
def isDigits (cs : List Char) : Bool :=
  !cs.isEmpty && cs.all Char.isDigit

/-- The value of a numeral with an optional sign. -/
def signedValue? : List Char → Option Int
  | '-' :: cs => if isDigits cs then some (-(value cs : Int)) else none
  | '+' :: cs => if isDigits cs then some (value cs) else none
  | cs => if isDigits cs then some (value cs) else none

/-- A power of ten. -/
def tenTo (n : Nat) : Nat :=
  Nat.pow 10 n

theorem tenTo_succ (n : Nat) : tenTo (n + 1) = tenTo n * 10 :=
  rfl

theorem value_append (a b : List Char) : value (a ++ b) = value a * tenTo b.length + value b := by
  have key : ∀ (b : List Char) (n : Nat),
      b.foldl (fun n c => 10 * n + digitValue c) n = n * tenTo b.length + value b := by
    intro b
    induction b with
    | nil => simp [value, tenTo]
    | cons c b ih =>
      intro n
      rw [value, List.foldl_cons, List.foldl_cons, ih, ih (10 * 0 + digitValue c)]
      simp only [List.length_cons, tenTo_succ]
      grind
  rw [value, List.foldl_append, key]
  rfl

end TypedNotation.Numeral
