import TypedNotation.Chunk
import TypedNotation.Chunk.Escape
import TypedNotation.Diagnostic
import TypedNotation.Double.Reader
import TypedNotation.Token

/-!
# Building chunks

A builder reads a token stream from left to right. It holds the blocks still open, each with its
chunks so far, and at most one chunk that is not complete: a tag that may get a payload, a key that
may get its colon, or a string that has not been closed.

A closing bracket of the wrong kind closes as many blocks as the depths of the two brackets tell, so
that one lost bracket does not spoil everything after it. What is open at the end is closed at the
last token.

Blocks are counted in words of 64 bits. The tokens of a text are never that deep; other streams have
no chunks where the count is too great (`Chunk.ofTokens?`).
-/

namespace TypedNotation

/-! ### Literals -/

namespace Literal

/-- The greatest and the least integer that a document can hold. -/
def clamp (negative : Bool) : Int64 :=
  if negative then Int64.minValue else Int64.maxValue

/-- The integer that a numeral denotes, if it is within bounds. -/
def int? (digits : List Char) : Option Int64 :=
  match Numeral.signedValue? digits with
  | some v =>
    if Int64.minValue.toInt ≤ v ∧ v ≤ Int64.maxValue.toInt then some (Int64.ofInt v) else none
  | none => none

/-- The finite float that a decimal denotes. -/
def float? (digits : List Char) : Option Double :=
  match Double.read? digits with
  | some x => if x.isFinite then some x else none
  | none => none

/-- The scalar of a literal token. A number out of range is reported, and the end of the range on
its side stands for it. -/
def read (literal : Literal) (t : Token) : Scalar × List Diagnostic :=
  let digits := t.text.toList.filter (· != '_')
  let negative := digits.head? == some '-'
  match literal with
  | .boolean => (.boolean (t.text == "true"), [])
  | .int =>
    match int? digits with
    | some v => (.int v, [])
    | none =>
      (.int (clamp negative), [.error .numberOutOfRange t.range "Integer literal out of range."])
  | .float =>
    match float? digits with
    | some x => (.float x, [])
    | none =>
      (.float (.ofMagnitude negative Double.greatest),
        [.error .numberOutOfRange t.range "Float literal out of range."])

end Literal

namespace Chunk

/-! ### States -/

/-- A tag and where it was found. -/
structure Tag where
  name : String
  range : Range
  index : Nat

/-- A tag without a payload. -/
def Tag.unit (t : Tag) : Chunk :=
  .enum t.name t.range none t.range (.single t.index)

/-- An open block. -/
structure Frame where
  kind : BlockKind
  /-- The opening bracket. -/
  bracket : Token
  index : Nat
  /-- The tag whose payload the block is. -/
  tag : Option Tag
  children : List Chunk

/-- The chunk of a block that ends at a token. -/
def Frame.chunk (f : Frame) (t : Token) (index : Nat) : Chunk :=
  let block : Bracketed Chunk :=
    ⟨f.kind, f.children, f.bracket.range.combine t.range, ⟨f.index, index + 1⟩⟩
  match f.tag with
  | some tag =>
    .enum tag.name tag.range (some block) (tag.range.combine block.range) ⟨tag.index, index + 1⟩
  | none => .block block

/-- A string that has not been closed. -/
structure OpenString where
  first : Nat
  last : Nat
  range : Range
  text : String

/-- The chunk of a string. -/
def OpenString.chunk (s : OpenString) : Chunk :=
  .value (.string s.text) s.range ⟨s.first, s.last + 1⟩

/-- The string with one more token. -/
def OpenString.extend (s : OpenString) (text : String) (t : Token) (index : Nat) : OpenString :=
  ⟨s.first, index, s.range.combine t.range, s.text ++ text⟩

/-- A chunk that is not complete. -/
inductive Pending where
  | none
  | tag (tag : Tag)
  | key (token : Token) (index : Nat)
  | string (string : OpenString)

/-- What is known after some tokens. -/
structure Builder where
  /-- The number of tokens read. -/
  index : Nat := 0
  /-- The last token read. -/
  last : Option Token := Option.none
  /-- The open blocks, innermost first. -/
  frames : List Frame := []
  /-- The chunks outside all blocks. -/
  top : List Chunk := []
  pending : Pending := .none
  /-- Whether a newline at this place separates items. -/
  weakAllowed : Bool := false
  diagnostics : List Diagnostic := []

namespace Builder

/-- The number of open blocks. -/
def depth (b : Builder) : Nat :=
  b.frames.length

/-- Adds a chunk to the innermost open block. -/
def push (b : Builder) (c : Chunk) : Builder :=
  match b.frames with
  | [] => { b with top := b.top ++ [c] }
  | f :: fs => { b with frames := { f with children := f.children ++ [c] } :: fs }

/-- Adds a finding. -/
def report (b : Builder) (d : Diagnostic) : Builder :=
  { b with diagnostics := b.diagnostics ++ [d] }

/-- Reports a token that stands for nothing. -/
def invalid (b : Builder) (t : Token) : Builder :=
  let message := if t.kind = .invalid true then "Unrecognised token" else "Invalid token"
  b.report (.error .invalidToken t.range message)

/-- The place where the tokens end; a last newline does not count. -/
def endOfInput (b : Builder) : Position :=
  match b.last with
  | some t => if t.kind = .newline then t.range.start else t.range.stop
  | none => .origin

/-- Reports that the tokens end too early. -/
def endTooEarly (b : Builder) : Builder :=
  b.report (.fatalError .unexpectedEndOfInput (.point b.endOfInput) "Unexpected end of input")

/-! ### Completing a pending chunk -/

/-- A key without its colon. -/
def bareKey (t : Token) (index : Nat) : Chunk :=
  .key t.text t.range t.range (.single index)

/-- A key with its colon. -/
def keyWithColon (t : Token) (index : Nat) (colon : Token) (colonIndex : Nat) : Chunk :=
  .key t.text t.range (t.range.combine colon.range) ⟨index, colonIndex + 1⟩

/-- Puts a complete chunk in the place of the pending one. -/
def complete (b : Builder) (c : Chunk) (weakAllowed : Bool) : Builder :=
  { b.push c with pending := .none, weakAllowed }

/-! ### Closing blocks -/

/-- Closes the innermost open block at a token. -/
def pop (b : Builder) (t : Token) (index : Nat) : Builder :=
  match b.frames with
  | [] => b
  | f :: fs => push { b with frames := fs } (f.chunk t index)

/-- Closes some open blocks at a token, innermost first. -/
def popMany (b : Builder) (t : Token) (index : Nat) : Nat → Builder
  | 0 => b
  | n + 1 => popMany (b.pop t index) t index n

/-- Brackets of different kinds meet: both places are named. -/
def mismatch (opened closed : Token) : Diagnostic :=
  let message := s!"Brackets mismatched! {opened.text} ... {closed.text}"
  { Diagnostic.fatalError .bracketMismatch closed.range message with
    related := [⟨opened.range, message⟩] }

/-- The blocks that a closing bracket of the wrong kind is to close, by the depths of the two. -/
def spanned (opened closed : Token) : Nat :=
  1 + (opened.depth - closed.depth)

/-- Reads a closing bracket. -/
def close (b : Builder) (t : Token) (kind : BlockKind) : Builder :=
  match b.frames with
  | [] => b.invalid t
  | f :: _ =>
    let closed :=
      if f.kind = kind then b.pop t b.index
      else
        (b.report (mismatch f.bracket t)).popMany t b.index (min (spanned f.bracket t) b.depth)
    { closed with weakAllowed := true }

/-! ### Reading tokens -/

/-- Reads a token that is no part of a pending key or string. -/
def read (b : Builder) (t : Token) : Builder :=
  match t.kind with
  | .ignored => b
  | .invalid _ => b.invalid t
  | .newline =>
    if b.weakAllowed then
      { b.push (.separator true t.range (.single b.index)) with weakAllowed := false }
    else b
  | .comma => { b.push (.separator false t.range (.single b.index)) with weakAllowed := true }
  | .colon => b.invalid t
  | .literal literal =>
    let (scalar, problems) := literal.read t
    let b := problems.foldl report b
    { b.push (.value scalar t.range (.single b.index)) with weakAllowed := true }
  | .key => { b with pending := .key t b.index }
  | .quote .opening => { b with pending := .string ⟨b.index, b.index, t.range, ""⟩ }
  | .quote .closing => b.invalid t
  | .stringText _ => b.invalid t
  | .tag =>
    let name := String.ofList (t.text.toList.dropWhile (· == '#'))
    { b with pending := .tag ⟨name, t.range, b.index⟩, weakAllowed := false }
  | .bracket kind .opening =>
    let tag := match b.pending with
      | .tag tag => some tag
      | _ => Option.none
    { b with
      frames := ⟨kind, t, b.index, tag, []⟩ :: b.frames
      pending := .none
      weakAllowed := false }
  | .bracket kind .closing => b.close t kind

/-- Whether a tag may still get its payload after a token. -/
def keepsTag (t : Token) : Bool :=
  match t.kind with
  | .ignored | .invalid _ | .bracket _ .opening => true
  | _ => false

/-- Reads a token inside a string. Any token that cannot stand there ends the string. -/
def readInString (b : Builder) (s : OpenString) (t : Token) : Builder :=
  let continued (text : String) : Pending := .string (s.extend text t b.index)
  match t.kind with
  | .stringText false => { b with pending := continued t.text }
  | .stringText true =>
    match Escape.decode? t.text.toList with
    | some c => { b with pending := continued (String.singleton c) }
    | none => { b.invalid t with pending := continued t.text }
  | .newline => { b with pending := continued "\n" }
  | .invalid _ => { b.invalid t with pending := continued t.text }
  | .quote .closing => b.complete (s.extend "" t b.index).chunk true
  | _ =>
    let b := b.report (.error .unterminatedString s.range "Unterminated string.")
    (b.complete s.chunk true).read t

/-- Reads a token, without counting it. -/
def readNext (b : Builder) (t : Token) : Builder :=
  match b.pending with
  | .none => b.read t
  | .tag tag => if keepsTag t then b.read t else (b.complete tag.unit true).read t
  | .key k index =>
    match t.kind with
    | .ignored => b
    | .colon => b.complete (keyWithColon k index t b.index) false
    | _ => (b.complete (bareKey k index) false).read t
  | .string s => b.readInString s t

/-- Reads a token. -/
def step (b : Builder) (t : Token) : Builder :=
  { b.readNext t with index := b.index + 1, last := some t }

/-- Completes or drops what is pending when the tokens end. -/
def settle (b : Builder) : Builder :=
  match b.pending with
  | .none => b
  | .tag tag => b.complete tag.unit true
  | .key k index => b.complete (bareKey k index) false
  | .string _ => { b.endTooEarly with pending := .none }

/-- Ends the reading: blocks still open are closed at the last token. -/
def finish (b : Builder) : Builder :=
  let b := b.settle
  match b.last with
  | some t => if b.frames.isEmpty then b else b.endTooEarly.popMany t (b.index - 1) b.depth
  | none => b

/-- The chunks outside all blocks, and what was found. -/
def result (b : Builder) : List Chunk × Report :=
  (b.top, ⟨b.diagnostics⟩)

/-! ### Blocks that cannot be counted -/

/-- Whether a token closes more blocks than can be counted. -/
def overflows (b : Builder) (t : Token) : Bool :=
  match b.frames, t.kind with
  | f :: _, .bracket kind .closing =>
    f.kind != kind && UInt64.size ≤ spanned f.bracket t
  | _, _ => false

/-- Reads a token, if the blocks that it closes can be counted. -/
def step? (b : Builder) (t : Token) : Option Builder :=
  if b.overflows t then Option.none else some (b.step t)

end Builder

/-- The chunks of a token stream, and what was found on the way. -/
def ofTokens (tokens : List Token) : List Chunk × Report :=
  (tokens.foldl Builder.step {}).finish.result

/-- The chunks of a token stream, if its blocks can be counted. -/
def ofTokens? (tokens : List Token) : Option (List Chunk × Report) :=
  (tokens.foldlM Builder.step? {}).map (·.finish.result)

end Chunk

end TypedNotation
