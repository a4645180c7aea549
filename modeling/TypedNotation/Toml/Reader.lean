import TypedNotation.Toml.Scalar

/-!
# Reading TOML

A TOML 1.0 text is a list of statements, one to a line: headers, which name the table that follows,
and assignments of values to keys. The statements are read first and then carried out in order on
the table of the whole text; a statement that defines something a second time is refused.

A key has at most `maxDepth` parts, and in a value at most as many arrays and tables lie inside each
other.

A table is *implicit* as long as it was only passed through on the way to another one, and *dotted*
if that way was a key with dots. Headers may open an implicit table that is not dotted, and keys
with dots may extend one that is.
-/

namespace TypedNotation.Toml

/-! ### Tables under construction -/

mutual

/-- What a key stands for. -/
inductive Node where
  | value (value : Json)
  | table (table : Table)
  /-- The tables that a doubled header has opened, the last one still open. -/
  | tables (tables : List Table)

/-- A table that may still grow. -/
inductive Table where
  | mk (entries : List (String × Node)) (implicit dotted : Bool)

end

namespace Table

/-- The keys of a table. -/
def entries : Table → List (String × Node)
  | mk entries _ _ => entries

/-- Whether the table was only passed through. -/
def implicit : Table → Bool
  | mk _ implicit _ => implicit

/-- Whether the table was made by a key with dots. -/
def dotted : Table → Bool
  | mk _ _ dotted => dotted

/-- A table that a header or an inline value has opened. -/
def opened : Table :=
  mk [] false false

/-- The table with one key set. -/
def set (t : Table) (key : String) (node : Node) : Table :=
  let others := t.entries.filter (·.1 != key)
  mk (others ++ [(key, node)]) t.implicit t.dotted

/-- Changes the table at the end of a path, making the tables that are missing on the way. A way by
dots may not lead through a table that a header has opened. -/
def modify (byDots : Bool) (change : Table → Option Table) : List String → Table → Option Table
  | [], t => change t
  | key :: path, t =>
    match t.entries.lookup key with
    | none =>
      (modify byDots change path (mk [] true byDots)).map fun u => t.set key (.table u)
    | some (.value _) => none
    | some (.table u) =>
      if byDots && !u.implicit then none
      else (modify byDots change path u).map fun u => t.set key (.table u)
    | some (.tables us) =>
      match us.getLast? with
      | none => none
      | some u =>
        (modify byDots change path u).map fun u => t.set key (.tables (us.dropLast ++ [u]))

/-- Gives a key with dots its value. -/
def assign (path : List String) (key : String) (value : Json) (t : Table) : Option Table :=
  t.modify true (fun u =>
    if u.dotted == path.isEmpty || (u.entries.lookup key).isSome then none
    else some (u.set key (.value value))) path

/-- Opens the table of a header. -/
def openTable (path : List String) (key : String) (t : Table) : Option Table :=
  t.modify false (fun u =>
    match u.entries.lookup key with
    | none => some (u.set key (.table opened))
    | some (.table v) =>
      if v.implicit && !v.dotted then some (u.set key (.table (mk v.entries false false))) else none
    | some _ => none) path

/-- Opens one more table of a doubled header. -/
def openElement (path : List String) (key : String) (t : Table) : Option Table :=
  t.modify false (fun u =>
    match u.entries.lookup key with
    | none => some (u.set key (.tables [opened]))
    | some (.tables vs) => some (u.set key (.tables (vs ++ [opened])))
    | some _ => none) path

end Table

mutual

/-- The value of a node. -/
def Node.toJson : Node → Json
  | .value v => v
  | .table t => t.toJson
  | .tables ts => .arr (tablesToJson ts)

/-- The object of a table. -/
def Table.toJson : Table → Json
  | .mk entries _ _ => .obj (entriesToJson entries)

/-- The fields of a table. -/
def entriesToJson : List (String × Node) → List (String × Json)
  | [] => []
  | (key, node) :: rest => (key, node.toJson) :: entriesToJson rest

/-- The objects of some tables. -/
def tablesToJson : List Table → List Json
  | [] => []
  | t :: rest => t.toJson :: tablesToJson rest

end

/-! ### Statements -/

/-- The text without its leading spaces and tabs. -/
def skipBlanks (cs : List Char) : List Char :=
  cs.dropWhile fun c => c == ' ' || c == '\t'

/-- Characters of keys without quotes. -/
def isKeyChar (c : Char) : Bool :=
  c.isAlphanum || c == '_' || c == '-'

/-- A part of a key. -/
def simpleKey? : Reader String := fun cs =>
  match cs with
  | '"' :: _ => lineString? cs
  | '\'' :: _ => lineString? cs
  | cs =>
    let name := cs.takeWhile isKeyChar
    if name.isEmpty then none else some (String.ofList name, cs.dropWhile isKeyChar)

/-- The greatest number of parts of a key, and of arrays and tables inside each other. -/
def maxDepth : Nat :=
  79

/-- A key of at most so many parts: the parts before the last one, and the last one. -/
def keyWithin? : Nat → Reader (List String × String)
  | 0, _ => none
  | parts + 1, cs =>
    match simpleKey? (skipBlanks cs) with
    | none => none
    | some (first, rest) =>
      match skipBlanks rest with
      | '.' :: rest =>
        (keyWithin? parts rest).map fun ((path, last), rest) => ((first :: path, last), rest)
      | rest => some (([], first), rest)

/-- A key: the parts before the last one, and the last one. -/
def key? : Reader (List String × String) :=
  keyWithin? maxDepth

/-- What follows a comment, if there is one, up to the end of the line. -/
def skipComment? : List Char → Option (List Char)
  | '#' :: cs =>
    let rest := cs.dropWhile isText
    if rest.isEmpty || (lineEnding? rest).isSome then some rest else none
  | cs => some cs

/-- The text without leading blanks, comments and line endings. -/
def skipTrivia? : Nat → List Char → Option (List Char)
  | 0, _ => none
  | fuel + 1, cs =>
    match skipComment? (skipBlanks cs) with
    | none => none
    | some rest =>
      match lineEnding? rest with
      | some rest => skipTrivia? fuel rest
      | none => some rest

mutual

/-- A value in which at most so many arrays and tables lie inside each other. -/
def value? : Nat → Nat → Reader Json
  | 0, _, _ => none
  | fuel + 1, depth, cs =>
    match cs, depth with
    | '"' :: _, _ => (string? cs).map fun (s, rest) => (.str s, rest)
    | '\'' :: _, _ => (string? cs).map fun (s, rest) => (.str s, rest)
    | '[' :: rest, depth + 1 => (elements? fuel depth rest).map fun (xs, rest) => (.arr xs, rest)
    | '{' :: rest, depth + 1 =>
      match skipBlanks rest with
      | '}' :: rest => some (.obj [], rest)
      | rest => (pairs? fuel depth .opened rest).map fun (t, rest) => (t.toJson, rest)
    | cs, _ =>
      let (run, rest) := bareRun cs
      (bare? run).map (·, rest)

/-- The elements of an array up to its bracket. -/
def elements? : Nat → Nat → Reader (List Json)
  | 0, _, _ => none
  | fuel + 1, depth, cs =>
    match skipTrivia? (cs.length + 1) cs with
    | none => none
    | some (']' :: rest) => some ([], rest)
    | some cs =>
      match value? fuel depth cs with
      | none => none
      | some (x, rest) =>
        match skipTrivia? (rest.length + 1) rest with
        | some (',' :: rest) => (elements? fuel depth rest).map fun (xs, rest) => (x :: xs, rest)
        | some (']' :: rest) => some ([x], rest)
        | _ => none

/-- The keys of an inline table up to its brace. -/
def pairs? : Nat → Nat → Table → Reader Table
  | 0, _, _, _ => none
  | fuel + 1, depth, t, cs =>
    match pair? fuel depth cs with
    | none => none
    | some ((path, key, value), rest) =>
      match t.assign path key value with
      | none => none
      | some t =>
        match skipBlanks rest with
        | ',' :: rest => pairs? fuel depth t rest
        | '}' :: rest => some (t, rest)
        | _ => none

/-- A key and its value. -/
def pair? : Nat → Nat → Reader (List String × String × Json)
  | 0, _, _ => none
  | fuel + 1, depth, cs =>
    match key? cs with
    | some ((path, key), '=' :: rest) =>
      (value? fuel depth (skipBlanks rest)).map fun (v, rest) => ((path, key, v), rest)
    | _ => none

end

/-- A line of a text. -/
inductive Statement where
  | header (path : List String) (key : String)
  | elementHeader (path : List String) (key : String)
  | assignment (path : List String) (key : String) (value : Json)

/-- A header, its first bracket already read. -/
def header? (cs : List Char) : Option (Statement × List Char) :=
  match cs with
  | '[' :: rest =>
    match key? rest with
    | some ((path, key), ']' :: ']' :: rest) => some (.elementHeader path key, rest)
    | _ => none
  | cs =>
    match key? cs with
    | some ((path, key), ']' :: rest) => some (.header path key, rest)
    | _ => none

/-- A statement. -/
def statement? (cs : List Char) : Option (Statement × List Char) :=
  match cs with
  | '[' :: rest => header? rest
  | cs => (pair? (2 * cs.length + 2) maxDepth cs).map fun ((path, key, v), rest) =>
    (.assignment path key v, rest)

/-- The statements of a text. -/
def statements? : Nat → List Char → Option (List Statement)
  | 0, _ => none
  | fuel + 1, cs =>
    match skipTrivia? (cs.length + 1) cs with
    | none => none
    | some [] => some []
    | some cs =>
      match statement? cs with
      | none => none
      | some (s, rest) =>
        match skipComment? (skipBlanks rest) with
        | some [] => some [s]
        | some rest =>
          match lineEnding? rest with
          | some rest => (statements? fuel rest).map (s :: ·)
          | none => none
        | none => none

/-- The table of the whole text, and the path of the table that is open. -/
structure State where
  root : Table := .opened
  current : List String := []

/-- Carries out a statement. -/
def State.step (s : State) : Statement → Option State
  | .header path key =>
    (s.root.openTable path key).map fun root => ⟨root, path ++ [key]⟩
  | .elementHeader path key =>
    (s.root.openElement path key).map fun root => ⟨root, path ++ [key]⟩
  | .assignment path key value =>
    (s.root.modify false (Table.assign path key value) s.current).map fun root => ⟨root, s.current⟩

/-- The object that a text describes. -/
def read? (text : String) : Option Json :=
  let cs := match text.toList with
    | '\uFEFF' :: cs => cs
    | cs => cs
  match statements? (cs.length + 1) cs with
  | none => none
  | some statements => (statements.foldlM State.step {}).map (·.root.toJson)

end TypedNotation.Toml
