import TypedNotation.Numeral

/-!
# Escapes

The character that an escape inside a string stands for. Two hexadecimal digits follow an `x` and
four a `u`; a code point that is no character, such as half of a surrogate pair, has no meaning.
-/

namespace TypedNotation.Escape

/-- The value of a hexadecimal numeral, which may carry a plus sign. -/
def numeral? : List Char → Option Nat
  | '+' :: cs => Numeral.hexValue? cs
  | cs => Numeral.hexValue? cs

/-- The character whose code point the first `n` characters spell. -/
def codePoint? (n : Nat) (cs : List Char) : Option Char :=
  if cs.length < n then none
  else (numeral? (cs.take n)).bind fun v => if v.isValidChar then some (Char.ofNat v) else none

/-- The character that an escape stands for. -/
def decode? : List Char → Option Char
  | '\\' :: c :: cs =>
    match c with
    | 'n' => some '\n'
    | 'r' => some '\r'
    | 't' => some '\t'
    | '\\' => some '\\'
    | '"' => some '"'
    | 'x' => codePoint? 2 cs
    | 'u' => codePoint? 4 cs
    | _ => none
  | _ => none

end TypedNotation.Escape
