import TypedNotation.Double.Reader
import TypedNotation.Json

/-!
# Reading JSON

A recursive reader of JSON text. Every call for a value or for the rest of a list uses up one unit
of fuel and at least one character of a text that can be read at all, so the length of the text is
fuel enough. A reader may refuse values in which too many arrays and objects lie inside each other.
Of two fields of one name the last one counts, in the place of the first.
-/

namespace TypedNotation.Json

/-- The rest of a text without leading blanks. -/
def skipBlanks (cs : List Char) : List Char :=
  cs.dropWhile fun c => c == ' ' || c == '\n' || c == '\r' || c == '\t'

/-- The value of four hexadecimal digits. -/
def hex4? (cs : List Char) : Option Nat :=
  if cs.length = 4 then Numeral.hexValue? cs else none

/-- The character of a short escape. -/
def shortEscape? (c : Char) : Option Char :=
  [('"', '"'), ('\\', '\\'), ('/', '/'), ('b', '\x08'), ('f', '\x0c'), ('n', '\n'), ('r', '\r'),
    ('t', '\t')].lookup c

/-- A character in front of what was read. -/
def consChar (c : Char) : Option (List Char × List Char) → Option (List Char × List Char)
  | some (text, rest) => some (c :: text, rest)
  | none => none

/-- The characters of a string up to its closing quote, and what follows it. -/
def stringBody : List Char → Option (List Char × List Char)
  | [] => none
  | '"' :: rest => some ([], rest)
  | '\\' :: 'u' :: rest =>
    match hex4? (rest.take 4) with
    | none => none
    | some high =>
      if 0xD800 ≤ high ∧ high < 0xDC00 then
        let tail := rest.drop 4
        match hex4? ((tail.drop 2).take 4) with
        | none => none
        | some low =>
          if tail.take 2 = ['\\', 'u'] ∧ 0xDC00 ≤ low ∧ low < 0xE000 then
            consChar (Char.ofNat (0x10000 + (high - 0xD800) * 0x400 + (low - 0xDC00)))
              (stringBody (rest.drop 10))
          else none
      else if 0xDC00 ≤ high ∧ high < 0xE000 then none
      else consChar (Char.ofNat high) (stringBody (rest.drop 4))
  | '\\' :: c :: rest =>
    match shortEscape? c with
    | some c => consChar c (stringBody rest)
    | none => none
  | c :: rest => if c.toNat < 0x20 then none else consChar c (stringBody rest)
termination_by cs => cs.length
decreasing_by all_goals simp_wf; try omega

/-- A number without a leading zero. -/
def numeral? (text : List Char) : Option Json :=
  let (negative, body) := match text with
    | '-' :: body => (true, body)
    | body => (false, body)
  let whole := body.takeWhile Char.isDigit
  let rest := body.dropWhile Char.isDigit
  let pointed := match rest with
    | '.' :: more => (more.head?.map Char.isDigit).getD false
    | _ => true
  if whole.isEmpty || (whole.length != 1 && whole.head? == some '0') || !pointed then none
  else
    let asFloat := (Double.read? text).bind fun x => if x.isFinite then some (float x) else none
    if rest.isEmpty then
      let value : Int := if negative then -(Numeral.value whole : Int) else Numeral.value whole
      if negative && value == 0 then asFloat
      else if Int64.minValue.toInt ≤ value ∧ value < UInt64.size then some (int value)
      else asFloat
    else asFloat

/-- The number at the start of a text. -/
def number? (cs : List Char) : Option (Json × List Char) :=
  let isPart := fun c : Char => c.isDigit || c == '-' || c == '+' || c == '.' || c == 'e' ||
    c == 'E'
  (numeral? (cs.takeWhile isPart)).map (·, cs.dropWhile isPart)

/-- A word in front of a text. -/
def word? (word : String) (value : Json) (cs : List Char) : Option (Json × List Char) :=
  if word.toList.isPrefixOf cs then some (value, cs.drop word.length) else none

/-- The fields with one more; a field of that name is replaced. -/
def setField (name : String) (value : Json) : List (String × Json) → List (String × Json)
  | [] => [(name, value)]
  | (k, x) :: rest =>
    if k = name then (k, value) :: rest else (k, x) :: setField name value rest

mutual

/-- The value at the start of a text, with at most so many arrays and objects inside each other. -/
def value? : Nat → Nat → List Char → Option (Json × List Char)
  | 0, _, _ => none
  | fuel + 1, depth, cs =>
    match skipBlanks cs, depth with
    | [], _ => none
    | '"' :: rest, _ => (stringBody rest).map fun (text, rest) => (str (String.ofList text), rest)
    | '[' :: rest, depth + 1 =>
      match skipBlanks rest with
      | ']' :: rest => some (arr [], rest)
      | _ => (items? fuel depth rest).map fun (xs, rest) => (arr xs, rest)
    | '{' :: rest, depth + 1 =>
      match skipBlanks rest with
      | '}' :: rest => some (obj [], rest)
      | _ => (fields? fuel depth [] rest).map fun (fs, rest) => (obj fs, rest)
    | 't' :: rest, _ => word? "true" (bool true) ('t' :: rest)
    | 'f' :: rest, _ => word? "false" (bool false) ('f' :: rest)
    | 'n' :: rest, _ => word? "null" null ('n' :: rest)
    | rest, _ => number? rest

/-- The items up to the bracket that closes them. -/
def items? : Nat → Nat → List Char → Option (List Json × List Char)
  | 0, _, _ => none
  | fuel + 1, depth, cs =>
    match value? fuel depth cs with
    | none => none
    | some (x, rest) =>
      match skipBlanks rest with
      | ',' :: rest => (items? fuel depth rest).map fun (xs, rest) => (x :: xs, rest)
      | ']' :: rest => some ([x], rest)
      | _ => none

/-- The fields up to the brace that closes them, after those already read. -/
def fields? :
    Nat → Nat → List (String × Json) → List Char → Option (List (String × Json) × List Char)
  | 0, _, _, _ => none
  | fuel + 1, depth, before, cs =>
    match skipBlanks cs with
    | '"' :: rest =>
      match stringBody rest with
      | none => none
      | some (name, rest) =>
        match skipBlanks rest with
        | ':' :: rest =>
          match value? fuel depth rest with
          | none => none
          | some (x, rest) =>
            let fields := setField (String.ofList name) x before
            match skipBlanks rest with
            | ',' :: rest => fields? fuel depth fields rest
            | '}' :: rest => some (fields, rest)
            | _ => none
        | _ => none
    | _ => none

end

/-- The value that a text spells, with at most so many arrays and objects inside each other. -/
def readWithin? (depth : Nat) (text : String) : Option Json :=
  let cs := text.toList
  match value? (2 * cs.length + 1) depth cs with
  | some (x, rest) => if (skipBlanks rest).isEmpty then some x else none
  | none => none

/-- The value that a text spells. -/
def read? (text : String) : Option Json :=
  readWithin? text.length text

end TypedNotation.Json
