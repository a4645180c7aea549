import TypedNotation.Uri

/-!
# The grammar of URIs

An absolute URI has a scheme, a colon, and then an authority, a path, a query and a fragment, of
which all but the path may be missing. A relative one has no scheme, and then there must be no colon
before the first slash of its path. Only ASCII characters are allowed, and a percent sign only
before two hexadecimal digits.
-/

namespace TypedNotation.Uri

/-- Whether a character may stand anywhere between the separators. -/
def isUnreserved (c : Char) : Bool :=
  c.isAlphanum || "-._~".toList.contains c

/-- Whether a character may stand in names of hosts. -/
def isNameChar (c : Char) : Bool :=
  isUnreserved c || "!$&'()*+,;=".toList.contains c

/-- Whether a character may stand in a path. -/
def isPathChar (c : Char) : Bool :=
  isNameChar c || ":@/".toList.contains c

/-- Whether a character may stand in a query or a fragment. -/
def isQueryChar (c : Char) : Bool :=
  isPathChar c || c == '?'

/-- Whether a character may stand in a scheme. -/
def isSchemeChar (c : Char) : Bool :=
  c.isAlphanum || "+-.".toList.contains c

/-- What follows the longest run of allowed characters and escapes; nothing if an escape is
broken. -/
def skip? (isAllowed : Char → Bool) : List Char → Option (List Char)
  | [] => some []
  | '%' :: high :: low :: rest =>
    if (Numeral.hexDigit? high).isSome && (Numeral.hexDigit? low).isSome then skip? isAllowed rest
    else none
  | c :: rest =>
    if c = '%' then none else if isAllowed c then skip? isAllowed rest else some (c :: rest)

/-- Whether a text has only allowed characters and escapes. -/
def consistsOf (isAllowed : Char → Bool) (cs : List Char) : Bool :=
  skip? isAllowed cs == some []

/-- Whether a text is a decimal number below 256 without needless zeros. -/
def isOctet (cs : List Char) : Bool :=
  Numeral.isDigits cs && Numeral.value cs < 256 && (cs.length == 1 || cs.head? != some '0')

/-- Whether a text is an address of four octets. -/
def isAddress4 (cs : List Char) : Bool :=
  let octets := Text.pieces '.' cs
  octets.length == 4 && octets.all isOctet

/-- The number of 16-bit groups in a list of them; an address of four octets may end it. -/
def groups? : List (List Char) → Option Nat
  | [] => some 0
  | [last] =>
    if isAddress4 last then some 2 else if isGroup last then some 1 else none
  | group :: rest => if isGroup group then (groups? rest).map (· + 1) else none
where
  isGroup (cs : List Char) : Bool :=
    (Numeral.hexValue? cs).isSome && cs.length ≤ 4

/-- The text before and behind the first double colon. -/
def splitDoubleColon : List Char → Option (List Char × List Char)
  | ':' :: ':' :: rest => some ([], rest)
  | c :: rest => (splitDoubleColon rest).map fun (before, behind) => (c :: before, behind)
  | [] => none

/-- The groups of one side of a double colon. -/
def sideGroups? (cs : List Char) : Option Nat :=
  if cs.isEmpty then some 0 else groups? (Text.pieces ':' cs)

/-- Whether a text is an address of eight groups, some of which a double colon may stand for. -/
def isAddress6 (cs : List Char) : Bool :=
  match splitDoubleColon cs with
  | none => groups? (Text.pieces ':' cs) == some 8
  | some (before, behind) =>
    match sideGroups? before, sideGroups? behind with
    | some m, some n => m + n ≤ 7 && !before.contains '.'
    | _, _ => false

/-- Whether a text is a port, or nothing. -/
def isPort : List Char → Bool
  | [] => true
  | ':' :: digits => digits.all Char.isDigit
  | _ => false

/-- Whether a text is a host and perhaps a port. -/
def isHost : List Char → Bool
  | '[' :: rest =>
    isAddress6 (rest.takeWhile (· != ']')) &&
      match rest.dropWhile (· != ']') with
      | ']' :: port => isPort port
      | _ => false
  | cs => consistsOf isNameChar (cs.takeWhile (· != ':')) && isPort (cs.dropWhile (· != ':'))

/-- Whether a text is an authority: a host, perhaps with a user before it. -/
def isAuthority (cs : List Char) : Bool :=
  match cs.dropWhile (· != '@') with
  | '@' :: host =>
    consistsOf (fun c => isNameChar c || c == ':') (cs.takeWhile (· != '@')) && isHost host
  | _ => isHost cs

/-- Whether a text is a path with perhaps a query and a fragment. -/
def isTail (cs : List Char) : Bool :=
  let fragment := fun
    | [] => true
    | '#' :: rest => consistsOf isQueryChar rest
    | _ => false
  match skip? isPathChar cs with
  | some ('?' :: rest) => (skip? isQueryChar rest).any fragment
  | some rest => fragment rest
  | none => false

/-- Whether a text is what may follow a scheme. -/
def isHierarchy : List Char → Bool
  | '/' :: '/' :: rest =>
    let ends := fun c => "/?#".toList.contains c
    isAuthority (rest.takeWhile (!ends ·)) && isTail (rest.dropWhile (!ends ·))
  | cs => isTail cs

/-- Whether a text has no colon before the first slash, question mark or hash. -/
def startsRelative (cs : List Char) : Bool :=
  !(cs.takeWhile fun c => !"/?#".toList.contains c).contains ':'

/-- Whether a text is a URI, absolute or relative. -/
def isReference (cs : List Char) : Bool :=
  match cs.dropWhile isSchemeChar with
  | ':' :: rest => (cs.head?.any Char.isAlpha) && isHierarchy rest
  | _ => startsRelative cs && isHierarchy cs

/-- Reads a URI. -/
def read? (text : String) : Option Uri :=
  if isReference text.toList then some ⟨text⟩ else none

end TypedNotation.Uri
