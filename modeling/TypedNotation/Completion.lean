import TypedNotation.Cursor.Enclosing

/-!
# Completion

What may be written at a position, by the type that is wanted there: the keys that a dict lacks, the
tags of an enum, the two truth values, and stubs of blocks and strings. A stub has tab stops: `$1`
for its inside and `$0` for what follows.
-/

namespace TypedNotation

/-- What a candidate is. -/
inductive CandidateKind where
  | property
  | snippet
  | keyword
  | enumMember
  deriving DecidableEq, Inhabited

namespace CandidateKind

/-- The name of the kind. -/
def name : CandidateKind → String
  | property => "property"
  | snippet => "snippet"
  | keyword => "keyword"
  | enumMember => "enumMember"

end CandidateKind

/-- Something that may be written. -/
structure Candidate where
  label : String
  /-- What is inserted, if it is not the label. -/
  insertText : Option String := none
  /-- Whether what is inserted has tab stops. -/
  snippet : Bool := false
  kind : CandidateKind
  deriving DecidableEq, Inhabited

namespace Candidate

/-- A fixed word. -/
def ofKeyword (word : String) : Candidate :=
  { label := word, kind := .keyword }

/-- A text with tab stops. -/
def stub (label insert : String) (kind : CandidateKind) : Candidate :=
  ⟨label, some insert, true, kind⟩

/-- The stub of a block. -/
def blockStub (kind : BlockKind) : String :=
  String.ofList ([kind.openChar, '$', '1', kind.closeChar] ++ ['$', '0'])

/-- The label of the stub of a block. -/
def blockLabel (kind : BlockKind) : String :=
  String.ofList ([kind.openChar] ++ " ... ".toList ++ [kind.closeChar])

/-- What may be written as a variant. -/
def ofVariant : String × Option BlockSpec → Candidate
  | (tag, payload) =>
    let stop := (payload.map fun b => blockStub b.dataKind).getD ""
    stub ("#" ++ tag) ("#" ++ tag ++ stop) .enumMember

/-- What may be written where a type is wanted. -/
def values (r : Resolver) (spec : TypeSpec) : List Candidate :=
  match spec.resolve r with
  | .ok (.block b) => [stub (blockLabel b.dataKind) (blockStub b.dataKind) .snippet]
  | .ok (.primitive .boolean) => [ofKeyword "true", ofKeyword "false"]
  | .ok (.primitive .string) => [stub "\" ... \"" "\"$0\"" .snippet]
  | .ok (.enum variants) => variants.map ofVariant
  | _ => []

/-- A key with the start of its value. -/
def ofKey (r : Resolver) : String × TypeSpec → Candidate
  | (key, spec) =>
    let stop := match spec.resolve r with
      | .ok (.block b) => blockStub b.dataKind
      | _ => ""
    stub key (key ++ ": " ++ stop) .property

/-- The keys of a dict type that are not among those written. -/
def missingKeys (r : Resolver) (fields : List (String × TypeSpec)) : Contents Data → List Candidate
  | .dict _ keyRanges =>
    (fields.filter fun (key, _) => !keyRanges.any (·.1 == key)).map (ofKey r)
  | _ => []

/-- What may be written at a place in a block. -/
def inBlock (r : Resolver) (block : Block Data) (spec : BlockSpec) (place : CursorPlace) :
    List Candidate :=
  match spec, place.passedKey with
  | .dict fields, some key =>
    match fields.lookup key with
    | some value => values r value
    | none => []
  | .dict fields, none => missingKeys r fields block.contents
  | .record value, some _ => values r value
  | .record _, none => []
  | .array element, _ => values r element
  | .tuple elements, _ =>
    match elements[place.valuesBefore]? with
    | some element => values r element
    | none => []

/-- What may be written at a position of a document of a type. Outside all blocks, and in a document
without data, a whole value is wanted. -/
def complete (r : Resolver) (data : Option Data) (spec : TypeSpec) (p : Position) :
    List Candidate :=
  match data with
  | none => values r spec
  | some data =>
    match Enclosing.ofData r p data spec with
    | .outside => values r spec
    | .typeFailed => []
    | .found block spec => inBlock r block spec (CursorPlace.ofBlock block p)

end Candidate

end TypedNotation
