/-!
# UTF-8

Bytes are natural numbers below `256`. `Utf8.encode` writes a character; `Utf8.decode` reads bytes
one character at a time and gives `none` for each longest run of bytes that starts a character and
is not continued as it should be. A strict reader accepts no such run, a lenient one puts the
replacement character in its place.
-/

namespace TypedNotation.Utf8

/-- The bytes of a character. -/
def encodeChar (c : Char) : List Nat :=
  let n := c.toNat
  if n < 0x80 then [n]
  else if n < 0x800 then [0xC0 + n / 0x40, 0x80 + n % 0x40]
  else if n < 0x10000 then [0xE0 + n / 0x1000, 0x80 + n / 0x40 % 0x40, 0x80 + n % 0x40]
  else
    [0xF0 + n / 0x40000, 0x80 + n / 0x1000 % 0x40, 0x80 + n / 0x40 % 0x40, 0x80 + n % 0x40]

/-- The bytes of a text. -/
def encode (cs : List Char) : List Nat :=
  cs.flatMap encodeChar

/-- The bounds of the byte behind a first byte, if more bytes follow it. -/
def secondByte? (b : Nat) : Option (Nat × Nat) :=
  if 0xC2 ≤ b ∧ b ≤ 0xDF then some (0x80, 0xBF)
  else if b = 0xE0 then some (0xA0, 0xBF)
  else if b = 0xED then some (0x80, 0x9F)
  else if 0xE1 ≤ b ∧ b ≤ 0xEF then some (0x80, 0xBF)
  else if b = 0xF0 then some (0x90, 0xBF)
  else if 0xF1 ≤ b ∧ b ≤ 0xF3 then some (0x80, 0xBF)
  else if b = 0xF4 then some (0x80, 0x8F)
  else none

/-- The number of bytes that follow a first byte. -/
def following (b : Nat) : Nat :=
  if b < 0xE0 then 1 else if b < 0xF0 then 2 else 3

/-- The bits of a first byte that belong to the code point. -/
def leadingBits (b : Nat) : Nat :=
  if b < 0xE0 then b - 0xC0 else if b < 0xF0 then b - 0xE0 else b - 0xF0

/-- Whether a byte continues a character. -/
def isContinuation (b : Nat) : Bool :=
  0x80 ≤ b && b ≤ 0xBF

/-- The bytes that continue a character after its first byte: as many as fit. -/
def continuation (first : Nat) : List Nat → List Nat
  | [] => []
  | b :: rest =>
    match secondByte? first with
    | some (lo, hi) =>
      if lo ≤ b ∧ b ≤ hi then b :: (rest.take (following first - 1)).takeWhile isContinuation
      else []
    | none => []

/-- The character of a first byte and the bytes that continue it, if they are all there. -/
def char? (first : Nat) (more : List Nat) : Option Char :=
  if first < 0x80 then some (Char.ofNat first)
  else if more.length = following first && (secondByte? first).isSome then
    some (Char.ofNat (more.foldl (fun n b => n * 0x40 + (b - 0x80)) (leadingBits first)))
  else none

/-- The characters of some bytes. -/
def decode : List Nat → List (Option Char)
  | [] => []
  | b :: rest =>
    let more := if b < 0x80 then [] else continuation b rest
    char? b more :: decode (rest.drop more.length)
termination_by bs => bs.length
decreasing_by simp only [List.length_drop, List.length_cons]; omega

/-- The character that stands for what cannot be read. -/
def replacement : Char :=
  '�'

/-- The text of some bytes, with the replacement character for what cannot be read. -/
def lenient (bytes : List Nat) : List Char :=
  (decode bytes).map fun c => c.getD replacement

/-- The text of some bytes, if all of them can be read. -/
def strict? (bytes : List Nat) : Option (List Char) :=
  (decode bytes).mapM id

end TypedNotation.Utf8
