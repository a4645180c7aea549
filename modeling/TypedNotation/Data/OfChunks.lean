import TypedNotation.Chunk
import TypedNotation.Data
import TypedNotation.Diagnostic

/-!
# From chunks to data

The chunks of a block are read as a sequence of items and separators: values in arrays and tuples,
keys each followed by a value in dicts. A chunk out of sequence is reported, with an edit that mends
it where there is one, and reading goes on as though the sequence had been right.

A document is one value at the top level. Keys, commas, no value or more than one value there are
fatal: `Data.ofChunks` gives data exactly if nothing fatal was found.

The parts of a block are read first, each with its own findings, and `Sequence.list` and
`Sequence.dict` then put parts and findings in order.
-/

namespace TypedNotation

namespace Sequence

/-- A chunk of a block with the data it stands for, if it is a value, and what was found in it. -/
structure Item where
  chunk : Chunk
  data : Option (Data × List Diagnostic)

/-! ### Findings -/

/-- The edit that puts a comma between a chunk and the one before it. -/
def commaBefore (previous : Option Item) (c : Chunk) : Edit :=
  match previous with
  | some ⟨p, _⟩ =>
    if p.range.stop.line = c.range.start.line then ⟨⟨p.range.stop, c.range.start⟩, ", "⟩
    else .insert p.range.stop ","
  | none => .insert c.range.start ","

/-- A separator is missing before a chunk. -/
def expectedSeparator (previous : Option Item) (c : Chunk) : Diagnostic :=
  (Diagnostic.error .expectedSeparator c.range "Expected \",\".").withFix (commaBefore previous c)

/-- A separator is missing before a chunk, and no edit mends it. -/
def expectedSeparatorUnfixed (c : Chunk) : Diagnostic :=
  .error .expectedSeparator c.range "Expected \",\"."

/-- A key is missing before a chunk. -/
def expectedKey (c : Chunk) : Diagnostic :=
  .error .expectedKey c.range "Expected property key."

/-- A value is missing before a chunk. -/
def expectedValue (c : Chunk) : Diagnostic :=
  .error .expectedValue c.range "Expected value."

/-- A separator with nothing to separate, which may as well go. -/
def straySeparator (c : Chunk) : Diagnostic :=
  (expectedValue c).withFix (.delete c.range)

/-- A key where only values may stand. -/
def keyInList (c : Chunk) : Diagnostic :=
  (Diagnostic.error .keyInListLike c.range "Arrays and tuples do not accept property keys.").withFix
    (.delete c.range)

/-- A key that was written before. -/
def duplicateKey (c : Chunk) (name : String) : Diagnostic :=
  .error .duplicateKey c.range s!"Duplicate property key \"{name}\"."

/-- A block ends where a value is missing. -/
def missingLast (items : List Item) : Diagnostic :=
  let stop := (items.getLast?.map (·.chunk.range.stop)).getD .origin
  .error .unexpectedEndOfInput (.point stop) "Unexpected end of input. Expected value."

/-! ### Separators -/

/-- Whether only separators lie between a place and the next newline or the end of the block. -/
def reachesEdge : List Item → Bool
  | [] => true
  | ⟨.separator true _ _, _⟩ :: _ => true
  | ⟨.separator false _ _, _⟩ :: rest => reachesEdge rest
  | _ :: _ => false

/-- Warns of a comma where a newline separates already, or nothing is to be separated. The items
before are given last first. -/
def needlessComma (before : List Item) (c : Chunk) (after : List Item) : List Diagnostic :=
  match c with
  | .separator false r _ =>
    if reachesEdge after || reachesEdge before then
      [(Diagnostic.warning .unnecessaryComma r "Unnecessary comma").withFix (.delete r)]
    else []
  | _ => []

/-- What is known of the separators so far. -/
structure Separators where
  /-- Whether an item is complete and a separator should come. -/
  expecting : Bool := false
  /-- Whether no item came since the last separator, or since the start. -/
  justHad : Bool := true
  /-- Whether the last separator was a newline, or there was none. -/
  justHadWeak : Bool := true

/-- What becomes of a separator. -/
inductive Outcome where
  /-- It belongs to the separator before it. -/
  | collapsed
  /-- There is nothing to separate yet. -/
  | unexpected
  | accepted

namespace Separators

/-- After a complete item. -/
def afterItem (s : Separators) : Separators :=
  { s with expecting := true, justHad := false }

/-- After a key. -/
def afterKey (s : Separators) : Separators :=
  { s with expecting := false, justHad := false }

/-- Reads a separator. -/
def step (s : Separators) (weak : Bool) (before : List Item) (c : Chunk) (after : List Item) :
    Outcome × Separators × List Diagnostic :=
  if s.justHad && s.justHadWeak then
    (.collapsed, { s with justHadWeak := weak }, needlessComma before c after)
  else if s.justHad && weak then (.collapsed, { s with justHadWeak := weak }, [])
  else if !s.expecting then (.unexpected, { s with justHadWeak := weak }, [])
  else (.accepted, ⟨false, true, weak⟩, needlessComma before c after)

/-- Whether an item was begun and not completed. -/
def dangling (s : Separators) : Bool :=
  !s.expecting && !s.justHad

end Separators

/-! ### Arrays and tuples -/

/-- What is known inside an array or a tuple. -/
structure ListState where
  separators : Separators := {}
  expectingValue : Bool := true
  items : List Data := []
  diagnostics : List Diagnostic := []

namespace ListState

/-- Adds findings. -/
def report (s : ListState) (ds : List Diagnostic) : ListState :=
  { s with diagnostics := s.diagnostics ++ ds }

/-- Reads one item between those before it, last first, and those after it. -/
def step (s : ListState) (before : List Item) (x : Item) (after : List Item) : ListState :=
  match x.data, x.chunk with
  | some (data, problems), c =>
    let s := if s.expectingValue then s else s.report [expectedSeparator before.head? c]
    { s.report problems with
      items := s.items ++ [data]
      expectingValue := false
      separators := s.separators.afterItem }
  | none, .separator weak r t =>
    let c := Chunk.separator weak r t
    let (outcome, separators, problems) := s.separators.step weak before c after
    let s := { s.report problems with separators }
    match outcome with
    | .collapsed => s
    | .unexpected => s.report [straySeparator c]
    | .accepted => { s with expectingValue := true }
  | none, c => s.report [keyInList c]

/-- Reads items. -/
def run (s : ListState) (before : List Item) : List Item → ListState
  | [] => s
  | x :: rest => (s.step before x rest).run (x :: before) rest

end ListState

/-- The elements of an array or a tuple, and what was found. -/
def list (items : List Item) : List Data × List Diagnostic :=
  let s := ListState.run {} [] items
  let last := if s.separators.dangling then [missingLast items] else []
  (s.items, s.diagnostics ++ last)

/-! ### Dicts -/

/-- What is known inside a dict. -/
structure DictState where
  separators : Separators := {}
  expectingKey : Bool := true
  /-- The key that waits for its value, and whether it was written before. -/
  pendingKey : Option (String × Bool) := none
  entries : List (String × Data) := []
  keyRanges : List (String × Range) := []
  diagnostics : List Diagnostic := []

namespace DictState

/-- Adds findings. -/
def report (s : DictState) (ds : List Diagnostic) : DictState :=
  { s with diagnostics := s.diagnostics ++ ds }

/-- Reads a key. -/
def stepKey (s : DictState) (before : List Item) (c : Chunk) (name : String) (nameRange : Range) :
    DictState :=
  let misplaced :=
    if s.expectingKey then []
    else if s.separators.expecting then [expectedSeparator before.head? c]
    else [expectedValue c]
  let known := s.keyRanges.any (·.1 == name)
  let s := s.report misplaced
  let s :=
    if known then s.report [duplicateKey c name]
    else { s with keyRanges := s.keyRanges ++ [(name, nameRange)] }
  { s with
    expectingKey := false
    pendingKey := some (name, known)
    separators := s.separators.afterKey }

/-- Reads a value. Without a key it is read for its own findings only. -/
def stepValue (s : DictState) (c : Chunk) (data : Data) (problems : List Diagnostic) : DictState :=
  match s.pendingKey with
  | none =>
    let misplaced := if s.expectingKey then expectedKey c else expectedSeparatorUnfixed c
    s.report (misplaced :: problems)
  | some (name, known) =>
    let s := s.report problems
    { s with
      entries := if known then s.entries else s.entries ++ [(name, data)]
      pendingKey := none
      expectingKey := false
      separators := s.separators.afterItem }

/-- Reads a separator. -/
def stepSeparator (s : DictState) (before : List Item) (c : Chunk) (after : List Item)
    (weak : Bool) : DictState :=
  let (outcome, separators, problems) := s.separators.step weak before c after
  let next := { s.report problems with separators }
  match outcome with
  | .collapsed => next
  | .unexpected =>
    next.report [if s.separators.justHad then straySeparator c else expectedValue c]
  | .accepted => { next with expectingKey := true, pendingKey := none }

/-- Reads one item between those before it, last first, and those after it. -/
def step (s : DictState) (before : List Item) (x : Item) (after : List Item) : DictState :=
  match x.data, x.chunk with
  | some (data, problems), c => s.stepValue c data problems
  | none, .key name nameRange r t => s.stepKey before (.key name nameRange r t) name nameRange
  | none, .separator weak r t => s.stepSeparator before (.separator weak r t) after weak
  | none, _ => s

/-- Reads items. -/
def run (s : DictState) (before : List Item) : List Item → DictState
  | [] => s
  | x :: rest => (s.step before x rest).run (x :: before) rest

end DictState

/-- The properties of a dict, the places of its keys, and what was found. -/
def dict (items : List Item) : Contents Data × List Diagnostic :=
  let s := DictState.run {} [] items
  let last := if s.separators.dangling then [missingLast items] else []
  (.dict s.entries s.keyRanges, s.diagnostics ++ last)

/-- The contents of a block of a kind. -/
def contents (kind : BlockKind) (items : List Item) : Contents Data × List Diagnostic :=
  match kind with
  | .dict => dict items
  | .array =>
    let (elements, problems) := list items
    (.array elements, problems)
  | .tuple =>
    let (elements, problems) := list items
    (.tuple elements, problems)

end Sequence

namespace Chunk

mutual

/-- The data of a chunk that stands for a value, and what was found in it. -/
def data? : Chunk → Option (Data × List Diagnostic)
  | value s r t => some (.primitive s r t, [])
  | block b =>
    let (b, problems) := blockData b
    some (.block b, problems)
  | enum tag tagRange none r t => some (.enum tag tagRange none r t, [])
  | enum tag tagRange (some b) r t =>
    let (b, problems) := blockData b
    some (.enum tag tagRange (some b) r t, problems)
  | key .. => none
  | separator .. => none

/-- The data of a block, and what was found in it. -/
def blockData : Bracketed Chunk → Block Data × List Diagnostic
  | ⟨kind, children, r, t⟩ =>
    let (contents, problems) := Sequence.contents kind (items children)
    (⟨contents, r, t⟩, problems)

/-- The chunks of a block with their data. -/
def items : List Chunk → List Sequence.Item
  | [] => []
  | c :: rest => ⟨c, c.data?⟩ :: items rest

end

/-- Keys and commas may not stand at the top level. -/
def illegalTopLevel : Chunk → List Diagnostic
  | key _ _ r _ | separator false r _ =>
    [.fatalError .illegalTopLevel r "Illegal top level chunk."]
  | _ => []

end Chunk

namespace Data

/-- The smallest range that covers all of some chunks. -/
def coveringRange : List Chunk → Range
  | [] => ⟨.origin, .origin⟩
  | c :: rest => rest.foldl (fun r d => r.combine d.range) c.range

/-- The data of the top-level chunks of a document, after what was found before, together with all
that was found. -/
def ofChunks (chunks : List Chunk) (earlier : Report) : Option Data × Report :=
  let report := earlier.merge ⟨chunks.flatMap Chunk.illegalTopLevel⟩
  if !report.canContinue then (none, report)
  else
    match chunks.filter Chunk.isValue with
    | [] =>
      (none, report.add (.fatalError .dataExpected (.point .origin) "Data expected."))
    | [c] =>
      match c.data? with
      | some (data, problems) => (some data, report.merge ⟨problems⟩)
      | none => (none, report)
    | _ :: rest =>
      (none, report.add
        (.fatalError .endOfFileExpected (coveringRange rest) "End of file expected."))

end Data

end TypedNotation
