import TypedNotation.Numeral
import TypedNotation.Path
import TypedNotation.Text.Utf8

/-!
# URIs of files

An editor names its documents by URIs. The URI of a file is `file://` and the path, in which each
byte that is neither a letter, a digit nor one of `-._~/:` is written as a percent sign and two
hexadecimal digits. Back from a URI to a path, a percent sign that no two such digits follow stands
for itself.
-/

namespace TypedNotation

/-- A name of a document, as an editor spells it. -/
structure Uri where
  text : String
  deriving DecidableEq, Inhabited

namespace Uri

/-- Whether a byte stands for itself. -/
def isPlain (b : Nat) : Bool :=
  let c := Char.ofNat b
  b < 0x80 && (c.isAlphanum || "-._~/:".toList.contains c)

/-- The hexadecimal digit of a number below sixteen. -/
def hexDigit (n : Nat) : Char :=
  if n < 10 then Char.ofNat ('0'.toNat + n) else Char.ofNat ('A'.toNat + (n - 10))

/-- The text of a byte. -/
def escape (b : Nat) : List Char :=
  if isPlain b then [Char.ofNat b] else ['%', hexDigit (b / 16), hexDigit (b % 16)]

/-- The text of some bytes. -/
def percentEncode (bytes : List Nat) : List Char :=
  bytes.flatMap escape

/-- The byte of two hexadecimal digits, themselves given as bytes. -/
def escaped? (high low : Nat) : Option Nat := do
  let h ← Numeral.hexDigit? (Char.ofNat high)
  let l ← Numeral.hexDigit? (Char.ofNat low)
  return 16 * h + l

/-- The bytes of a text, itself given as bytes. -/
def percentDecode : List Nat → List Nat
  | [] => []
  | b :: high :: low :: rest =>
    if b = '%'.toNat then
      match escaped? high low with
      | some byte => byte :: percentDecode rest
      | none => b :: percentDecode (high :: low :: rest)
    else b :: percentDecode (high :: low :: rest)
  | b :: rest => b :: percentDecode rest

/-- What the URI of a file starts with. -/
def fileScheme : String :=
  "file://"

/-- The text behind a start. -/
def after? (start text : List Char) : Option (List Char) :=
  if start.isPrefixOf text then some (text.drop start.length) else none

/-- The path of a document. What is not the URI of a file is its own path. -/
def path (u : Uri) : Path :=
  match after? fileScheme.toList u.text.toList with
  | some rest => ⟨String.ofList (Utf8.lenient (percentDecode (Utf8.encode rest)))⟩
  | none => ⟨u.text⟩

/-- The text of a path with slashes only, starting with one. -/
def slashed (p : Path) : List Char :=
  let cs := p.text.toList.map fun c => if c = '\\' then '/' else c
  if cs.head? = some '/' then cs else '/' :: cs

/-- The URI of a file. -/
def ofPath (p : Path) : Uri :=
  ⟨fileScheme ++ String.ofList (percentEncode (Utf8.encode (slashed p)))⟩

end Uri

end TypedNotation
