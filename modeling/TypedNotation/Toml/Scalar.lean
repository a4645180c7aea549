import TypedNotation.Double.Reader
import TypedNotation.Json

/-!
# TOML scalars

Numbers, truth values, dates and strings of TOML 1.0. A number, a truth value or a date is a run of
characters that can stand in no other place, so the run is taken whole and then read. A date becomes
an object with its text as the only field.
-/

namespace TypedNotation.Toml

/-- A reader: what was read and the rest of the text. -/
abbrev Reader (α : Type) := List Char → Option (α × List Char)

/-! ### Numbers -/

/-- Digits of a base in which single underscores may stand between two digits. -/
def underscored (isDigit : Char → Bool) : List Char → Bool
  | [] => false
  | [c] => isDigit c
  | c :: '_' :: rest => isDigit c && underscored isDigit rest
  | c :: rest => isDigit c && underscored isDigit rest

/-- The text without its underscores. -/
def plain (cs : List Char) : List Char :=
  cs.filter (· != '_')

/-- A sign and what follows it. -/
def splitSign : List Char → Bool × List Char
  | '-' :: cs => (true, cs)
  | '+' :: cs => (false, cs)
  | cs => (false, cs)

/-- A decimal numeral without leading zeros. -/
def isDecimal (cs : List Char) : Bool :=
  underscored Char.isDigit cs && (cs.length = 1 || cs.head? != some '0')

/-- An integer of 64 bits. -/
def bounded? (v : Int) : Option Json :=
  if Int64.minValue.toInt ≤ v ∧ v ≤ Int64.maxValue.toInt then some (.int v) else none

/-- The value of digits of a base. -/
def baseValue (base : Nat) (cs : List Char) : Nat :=
  cs.foldl (fun n c => base * n + (Numeral.hexDigit? c).getD 0) 0

/-- An unsigned numeral of a base other than ten. -/
def based? (base : Nat) (cs : List Char) : Option Json :=
  let isDigit := fun c => match Numeral.hexDigit? c with
    | some d => decide (d < base)
    | none => false
  if underscored isDigit cs then bounded? (baseValue base (plain cs)) else none

/-- An integer. -/
def integer? : List Char → Option Json
  | '0' :: 'x' :: cs => based? 16 cs
  | '0' :: 'o' :: cs => based? 8 cs
  | '0' :: 'b' :: cs => based? 2 cs
  | cs =>
    let (negative, digits) := splitSign cs
    if isDecimal digits then
      let v := Numeral.value (plain digits)
      bounded? (if negative then -(v : Int) else v)
    else none

/-- A power of ten, its mark included, or nothing at all. -/
def isPower : List Char → Bool
  | [] => true
  | c :: cs => (c == 'e' || c == 'E') && underscored Char.isDigit (splitSign cs).2

/-- What may follow the whole part of a float: places, a power of ten, or both. -/
def isFloatTail : List Char → Bool
  | '.' :: cs =>
    let isPlace := fun c : Char => c.isDigit || c == '_'
    underscored Char.isDigit (cs.takeWhile isPlace) && isPower (cs.dropWhile isPlace)
  | [] => false
  | cs => isPower cs

/-- A float. One that is too great for its type is refused. -/
def float? (cs : List Char) : Option Json :=
  let body := (splitSign cs).2
  let isWhole := fun c : Char => c.isDigit || c == '_'
  if body = "inf".toList || body = "nan".toList then (Double.read? cs).map .float
  else if isDecimal (body.takeWhile isWhole) && isFloatTail (body.dropWhile isWhole) then
    (Double.read? (plain cs)).bind fun x =>
      if x.isFinite || x.isNegative then some (.float x) else none
  else none

/-! ### Dates and times -/

/-- The value of a run of exactly so many digits. -/
def digits? (n : Nat) (cs : List Char) : Option (Nat × List Char) :=
  let ds := cs.take n
  if ds.length = n && ds.all Char.isDigit then some (Numeral.value ds, cs.drop n) else none

/-- The number of days of a month. -/
def daysIn (year month : Nat) : Nat :=
  if month = 2 then
    if year % 4 = 0 && (year % 100 != 0 || year % 400 = 0) then 29 else 28
  else if month = 4 || month = 6 || month = 9 || month = 11 then 30
  else 31

/-- What follows a date at the start of a text. -/
def afterDate? (cs : List Char) : Option (List Char) :=
  match digits? 4 cs with
  | some (year, '-' :: cs) =>
    match digits? 2 cs with
    | some (month, '-' :: cs) =>
      match digits? 2 cs with
      | some (day, rest) =>
        if 1 ≤ month ∧ month ≤ 12 ∧ 1 ≤ day ∧ day ≤ daysIn year month then some rest else none
      | none => none
    | _ => none
  | _ => none

/-- What follows a fraction of a second. -/
def afterFraction? : List Char → Option (List Char)
  | '.' :: cs => if (cs.head?.any Char.isDigit) then some (cs.dropWhile Char.isDigit) else none
  | cs => some cs

/-- What follows a time at the start of a text. -/
def afterTime? (cs : List Char) : Option (List Char) :=
  match digits? 2 cs with
  | some (hour, ':' :: cs) =>
    match digits? 2 cs with
    | some (minute, ':' :: cs) =>
      match digits? 2 cs with
      | some (second, rest) =>
        if hour ≤ 23 ∧ minute ≤ 59 ∧ second ≤ 60 then afterFraction? rest else none
      | none => none
    | _ => none
  | _ => none

/-- Whether a text is an offset from universal time, or nothing. -/
def isOffset : List Char → Bool
  | [] => true
  | c :: cs =>
    if c == 'Z' || c == 'z' then cs.isEmpty
    else if c == '+' || c == '-' then
      match digits? 2 cs with
      | some (hour, ':' :: cs) =>
        match digits? 2 cs with
        | some (minute, rest) => hour ≤ 23 && minute ≤ 59 && rest.isEmpty
        | none => false
      | _ => false
    else false

/-- Whether a text is a date, a time, or both. -/
def isDate (cs : List Char) : Bool :=
  match afterDate? cs with
  | some [] => true
  | some (c :: rest) =>
    (c == 'T' || c == 't' || c == ' ') &&
      (match afterTime? rest with
        | some offset => isOffset offset
        | none => false)
  | none => afterTime? cs == some []

/-! ### Bare scalars -/

/-- Characters of numbers, truth values and dates. -/
def isBare (c : Char) : Bool :=
  c.isAlphanum || c == '_' || c == '-' || c == '+' || c == '.' || c == ':'

/-- The run of a number, a truth value or a date. A time may follow its date after a space. -/
def bareRun (cs : List Char) : List Char × List Char :=
  let run := cs.takeWhile isBare
  let rest := cs.dropWhile isBare
  match rest with
  | ' ' :: more =>
    let time := more.takeWhile isBare
    if afterDate? run = some [] && (digits? 2 time).any (·.2.head? == some ':') then
      (run ++ ' ' :: time, more.dropWhile isBare)
    else (run, rest)
  | _ => (run, rest)

/-- The scalar that a run spells. -/
def bare? (run : List Char) : Option Json :=
  if run = "true".toList then some (.bool true)
  else if run = "false".toList then some (.bool false)
  else if isDate run then some (.obj [("date", .str (String.ofList run))])
  else (integer? run).or (float? run)

/-! ### Strings -/

/-- Characters that may stand unescaped in strings and comments. -/
def isText (c : Char) : Bool :=
  c == '\t' || (0x20 ≤ c.toNat && c.toNat != 0x7F)

/-- A character in front of what was read. -/
def cons (c : Char) : Option (List Char × List Char) → Option (List Char × List Char)
  | some (text, rest) => some (c :: text, rest)
  | none => none

/-- The character whose code point is spelled by the first `n` characters. -/
def codePoint? (n : Nat) (cs : List Char) : Option Char :=
  let ds := cs.take n
  if ds.length = n then
    (Numeral.hexValue? ds).bind fun v => if v.isValidChar then some (Char.ofNat v) else none
  else none

/-- The character of an escape of one letter. -/
def shortEscape? (c : Char) : Option Char :=
  [('b', '\x08'), ('t', '\t'), ('n', '\n'), ('f', '\x0c'), ('r', '\r'), ('"', '"'),
    ('\\', '\\')].lookup c

/-- What follows an escape, and its character. The backslash is not part of the text. -/
def escape? : List Char → Option (Char × List Char)
  | [] => none
  | c :: cs =>
    if c = 'u' then (codePoint? 4 cs).map (·, cs.drop 4)
    else if c = 'U' then (codePoint? 8 cs).map (·, cs.drop 8)
    else (shortEscape? c).map (·, cs)

theorem length_of_escape? {cs rest : List Char} {c : Char} (h : escape? cs = some (c, rest)) :
    rest.length < cs.length := by
  cases cs with
  | nil => simp [escape?] at h
  | cons d cs =>
    simp only [escape?] at h
    split at h
    · obtain ⟨_, _, he⟩ := Option.map_eq_some_iff.1 h
      obtain ⟨-, rfl⟩ := Prod.mk.inj he
      simp only [List.length_cons, List.length_drop]
      omega
    · split at h <;> obtain ⟨_, _, he⟩ := Option.map_eq_some_iff.1 h <;>
        obtain ⟨-, rfl⟩ := Prod.mk.inj he <;>
        simp only [List.length_cons, List.length_drop] <;> omega

/-- The rest of a string between double quotes. -/
def basicBody : List Char → Option (List Char × List Char)
  | [] => none
  | '"' :: rest => some ([], rest)
  | '\\' :: rest =>
    match _h : escape? rest with
    | some (c, more) => cons c (basicBody more)
    | none => none
  | c :: rest => if isText c then cons c (basicBody rest) else none
termination_by cs => cs.length
decreasing_by
  · have := length_of_escape? _h; simp; omega
  · simp

/-- The rest of a string between single quotes, in which nothing is escaped. -/
def literalBody : List Char → Option (List Char × List Char)
  | [] => none
  | '\'' :: rest => some ([], rest)
  | c :: rest => if isText c then cons c (literalBody rest) else none

/-- What follows a line ending. -/
def lineEnding? : List Char → Option (List Char)
  | '\n' :: rest => some rest
  | '\r' :: '\n' :: rest => some rest
  | _ => none

/-- The text without its leading blanks and line endings. -/
def skipLines : List Char → List Char
  | ' ' :: rest => skipLines rest
  | '\t' :: rest => skipLines rest
  | '\n' :: rest => skipLines rest
  | '\r' :: '\n' :: rest => skipLines rest
  | cs => cs

theorem length_skipLines (cs : List Char) : (skipLines cs).length ≤ cs.length := by
  fun_induction skipLines cs <;> simp <;> omega

/-- What follows a backslash that joins a line with the next one. -/
def joined? (cs : List Char) : Option (List Char) :=
  (lineEnding? (cs.dropWhile fun c => c == ' ' || c == '\t')).map skipLines

theorem length_of_lineEnding? {cs rest : List Char} (h : lineEnding? cs = some rest) :
    rest.length < cs.length := by
  unfold lineEnding? at h
  split at h
  next => obtain rfl := Option.some.inj h; simp
  next => obtain rfl := Option.some.inj h; simp only [List.length_cons]; omega
  next => simp at h

theorem length_of_joined? {cs rest : List Char} (h : joined? cs = some rest) :
    rest.length < cs.length := by
  obtain ⟨more, hm, rfl⟩ := Option.map_eq_some_iff.1 h
  have hd := (List.dropWhile_suffix (l := cs) fun c => c == ' ' || c == '\t').length_le
  have hl := length_of_lineEnding? hm
  have hs := length_skipLines more
  omega

/-- The quotes that end a string of several lines: three, and up to two more that belong to it. -/
def closing? (quote : Char) (cs : List Char) : Option (List Char × List Char) :=
  let run := cs.takeWhile (· == quote)
  if run.length < 3 then none
  else if run.length ≤ 5 then some (run.drop 3, cs.drop run.length)
  else some ([quote, quote], cs.drop 5)

/-- The rest of a string of several lines between double quotes. -/
def multilineBody (cs : List Char) : Option (List Char × List Char) :=
  match closing? '"' cs with
  | some found => some found
  | none =>
    match cs with
    | [] => none
    | '\\' :: rest =>
      match _hj : joined? rest with
      | some more => multilineBody more
      | none =>
        match _he : escape? rest with
        | some (c, more) => cons c (multilineBody more)
        | none => none
    | '\r' :: '\n' :: rest => cons '\n' (multilineBody rest)
    | c :: rest => if isText c || c == '\n' then cons c (multilineBody rest) else none
termination_by cs.length
decreasing_by
  · have := length_of_joined? _hj; simp; omega
  · have := length_of_escape? _he; simp; omega
  · simp only [List.length_cons]; omega
  · simp

/-- The rest of a string of several lines between single quotes. -/
def multilineLiteralBody (cs : List Char) : Option (List Char × List Char) :=
  match closing? '\'' cs with
  | some found => some found
  | none =>
    match cs with
    | [] => none
    | '\r' :: '\n' :: rest => cons '\n' (multilineLiteralBody rest)
    | c :: rest => if isText c || c == '\n' then cons c (multilineLiteralBody rest) else none

/-- The text without the line ending at its start. -/
def dropFirstEnding (cs : List Char) : List Char :=
  (lineEnding? cs).getD cs

/-- A string on one line. -/
def lineString? : Reader String := fun cs =>
  let read := match cs with
    | '"' :: rest => basicBody rest
    | '\'' :: rest => literalBody rest
    | _ => none
  read.map fun (text, rest) => (String.ofList text, rest)

/-- A string. -/
def string? : Reader String := fun cs =>
  match cs with
  | '"' :: '"' :: '"' :: rest =>
    (multilineBody (dropFirstEnding rest)).map fun (text, rest) => (String.ofList text, rest)
  | '\'' :: '\'' :: '\'' :: rest =>
    (multilineLiteralBody (dropFirstEnding rest)).map fun (text, rest) => (String.ofList text, rest)
  | cs => lineString? cs

end TypedNotation.Toml
