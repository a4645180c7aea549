import TypedNotation.Data.OfChunks
import TypedNotation.Proofs.BuilderSteps

/-!
# Other numbers for tokens

Chunks and data know their tokens by number. Giving the tokens other numbers changes nothing else:
a builder that counts differently builds the same chunks under the new numbers
(`Builder.moved_readNext`), and chunks with new numbers are read as the same data, with the same
findings (`Data.ofChunks_renumber`).

A token range is given by its first and its last token, and each gets its new number. So nothing is
asked of the numbers here, not even that they go up.
-/

namespace TypedNotation

open List

/-- The token range whose first and last tokens have been given other numbers. -/
def TokenRange.renumber (f : Nat → Nat) (n : TokenRange) : TokenRange :=
  ⟨f n.start, f (n.stop - 1) + 1⟩

@[simp] theorem TokenRange.renumber_mk (f : Nat → Nat) (i j : Nat) :
    renumber f ⟨i, j + 1⟩ = ⟨f i, f j + 1⟩ := rfl

/-! ### Chunks and data -/

namespace Chunk

mutual

/-- A chunk under other numbers for the tokens. -/
def renumber (f : Nat → Nat) : Chunk → Chunk
  | block b => block (renumberBlock f b)
  | enum tag tagRange none r n => enum tag tagRange none r (n.renumber f)
  | enum tag tagRange (some b) r n =>
    enum tag tagRange (some (renumberBlock f b)) r (n.renumber f)
  | key name nameRange r n => key name nameRange r (n.renumber f)
  | value s r n => value s r (n.renumber f)
  | separator weak r n => separator weak r (n.renumber f)

/-- A block of chunks under other numbers. -/
def renumberBlock (f : Nat → Nat) : Bracketed Chunk → Bracketed Chunk
  | ⟨kind, children, r, n⟩ => ⟨kind, renumberList f children, r, n.renumber f⟩

/-- Chunks under other numbers. -/
def renumberList (f : Nat → Nat) : List Chunk → List Chunk
  | [] => []
  | c :: cs => c.renumber f :: renumberList f cs

end

/-- Chunks are renumbered one by one. -/
theorem renumberList_eq (f : Nat → Nat) (cs : List Chunk) :
    renumberList f cs = cs.map (renumber f) := by
  induction cs with
  | nil => rfl
  | cons c cs ih => rw [renumberList, ih, map_cons]

/-- Other numbers leave the range of text. -/
@[simp] theorem range_renumber (f : Nat → Nat) (c : Chunk) : (c.renumber f).range = c.range := by
  rcases c with ⟨⟨_, _, _, _⟩⟩ | ⟨_, _, _ | _, _, _⟩ | _ | _ | _ <;> rfl

/-- A chunk is a value whatever the numbers are. -/
@[simp] theorem isValue_renumber (f : Nat → Nat) (c : Chunk) :
    (c.renumber f).isValue = c.isValue := by
  rcases c with _ | ⟨_, _, _ | _, _, _⟩ | _ | _ | _ <;> rfl

/-- What may stand at the top level does not depend on numbers. -/
@[simp] theorem illegalTopLevel_renumber (f : Nat → Nat) (c : Chunk) :
    (c.renumber f).illegalTopLevel = c.illegalTopLevel := by
  rcases c with _ | ⟨_, _, _ | _, _, _⟩ | _ | _ | ⟨_ | _, _, _⟩ <;> rfl

end Chunk

namespace Data

mutual

/-- Data under other numbers for the tokens. -/
def renumber (f : Nat → Nat) : Data → Data
  | primitive s r n => primitive s r (n.renumber f)
  | block b => block (renumberBlock f b)
  | enum tag tagRange none r n => enum tag tagRange none r (n.renumber f)
  | enum tag tagRange (some b) r n =>
    enum tag tagRange (some (renumberBlock f b)) r (n.renumber f)

/-- A block of data under other numbers. -/
def renumberBlock (f : Nat → Nat) : Block Data → Block Data
  | ⟨contents, r, n⟩ => ⟨renumberContents f contents, r, n.renumber f⟩

/-- What is inside a block, under other numbers. -/
def renumberContents (f : Nat → Nat) : Contents Data → Contents Data
  | .dict entries keyRanges => .dict (renumberEntries f entries) keyRanges
  | .array items => .array (renumberItems f items)
  | .tuple items => .tuple (renumberItems f items)

/-- Properties under other numbers. -/
def renumberEntries (f : Nat → Nat) : List (String × Data) → List (String × Data)
  | [] => []
  | (name, d) :: rest => (name, d.renumber f) :: renumberEntries f rest

/-- Elements under other numbers. -/
def renumberItems (f : Nat → Nat) : List Data → List Data
  | [] => []
  | d :: rest => d.renumber f :: renumberItems f rest

end

/-- Properties are renumbered one by one. -/
theorem renumberEntries_eq (f : Nat → Nat) (entries : List (String × Data)) :
    renumberEntries f entries = entries.map fun e => (e.1, e.2.renumber f) := by
  induction entries with
  | nil => rfl
  | cons e rest ih => rw [renumberEntries, ih, map_cons]

/-- Elements are renumbered one by one. -/
theorem renumberItems_eq (f : Nat → Nat) (items : List Data) :
    renumberItems f items = items.map (renumber f) := by
  induction items with
  | nil => rfl
  | cons d rest ih => rw [renumberItems, ih, map_cons]

end Data

/-! ### Builders -/

namespace Chunk

/-- A tag under other numbers. -/
def Tag.renumber (f : Nat → Nat) (t : Tag) : Tag :=
  { t with index := f t.index }

/-- An open block under other numbers. -/
def Frame.renumber (f : Nat → Nat) (frame : Frame) : Frame :=
  { frame with
    index := f frame.index
    tag := frame.tag.map (Tag.renumber f)
    children := frame.children.map (Chunk.renumber f) }

/-- A string that has not been closed, under other numbers. -/
def OpenString.renumber (f : Nat → Nat) (s : OpenString) : OpenString :=
  { s with first := f s.first, last := f s.last }

/-- What is pending, under other numbers. -/
def Pending.renumber (f : Nat → Nat) : Pending → Pending
  | .none => .none
  | .tag mark => .tag (mark.renumber f)
  | .key token index => .key token (f index)
  | .string s => .string (s.renumber f)

/-- A renumbered frame makes the renumbered chunk. -/
theorem Frame.chunk_renumber (f : Nat → Nat) (frame : Frame) (t : Token) (i : Nat) :
    (frame.renumber f).chunk t (f i) = (frame.chunk t i).renumber f := by
  obtain ⟨kind, bracket, index, _ | tag, children⟩ := frame <;>
    simp [Frame.renumber, Frame.chunk, Chunk.renumber, renumberBlock, renumberList_eq, Tag.renumber]

namespace Builder

/-- A builder under other numbers, which has come to some index and some last token by another
way. -/
def moved (f : Nat → Nat) (index : Nat) (last : Option Token) (b : Builder) : Builder :=
  { b with
    index
    last
    frames := b.frames.map (Frame.renumber f)
    top := b.top.map (Chunk.renumber f)
    pending := b.pending.renumber f }

variable (f : Nat → Nat) {i : Nat} (l : Option Token) (b : Builder) (t : Token)

/-- Adding a chunk commutes with moving the builder. -/
theorem moved_push (c : Chunk) : (b.moved f i l).push (c.renumber f) = (b.push c).moved f i l := by
  obtain ⟨index, last, _ | ⟨frame, frames⟩, top, pending, weak, diagnostics⟩ := b <;>
    simp [moved, push, Frame.renumber]

theorem moved_push_weak (c : Chunk) (weak : Bool) :
    { (b.moved f i l).push (c.renumber f) with weakAllowed := weak } =
      ({ b.push c with weakAllowed := weak } : Builder).moved f i l := by
  rw [moved_push]
  rfl

/-- Reporting commutes with moving the builder. -/
theorem moved_report (d : Diagnostic) : (b.moved f i l).report d = (b.report d).moved f i l := rfl

theorem moved_invalid : (b.moved f i l).invalid t = (b.invalid t).moved f i l := rfl

/-- Completing a chunk commutes with moving the builder. -/
theorem moved_complete (c : Chunk) (weak : Bool) :
    (b.moved f i l).complete (c.renumber f) weak = (b.complete c weak).moved f i l := by
  rw [complete, moved_push]
  simp [moved, complete, Pending.renumber]

/-- Closing a block commutes with moving the builder. -/
theorem moved_pop (j : Nat) : (b.moved f i l).pop t (f j) = (b.pop t j).moved f i l := by
  obtain ⟨index, last, _ | ⟨frame, frames⟩, top, pending, weak, diagnostics⟩ := b
  · rfl
  · exact (congrArg _ (frame.chunk_renumber f t j)).trans
      (moved_push f l ⟨index, last, frames, top, pending, weak, diagnostics⟩ _)

/-- Closing several blocks commutes with moving the builder. -/
theorem moved_popMany (j n : Nat) :
    (b.moved f i l).popMany t (f j) n = (b.popMany t j n).moved f i l := by
  induction n generalizing b with
  | zero => rfl
  | succ n ih => rw [popMany, moved_pop, ih, popMany]

variable {b} (hi : f b.index = i)
include hi

/-- A closing bracket ends the same blocks in a moved builder. -/
theorem moved_close (kind : BlockKind) :
    (b.moved f i l).close t kind = (b.close t kind).moved f i l := by
  cases hframes : b.frames with
  | nil =>
    have hmoved : (b.moved f i l).frames = [] := by simp [moved, hframes]
    simp only [close, hframes, hmoved, moved_invalid]
  | cons frame frames =>
    have hmoved : (b.moved f i l).frames = frame.renumber f :: frames.map (Frame.renumber f) := by
      simp [moved, hframes]
    have hindex : (b.moved f i l).index = f b.index := hi.symm
    have hdepth : (b.moved f i l).depth = b.depth := by simp [depth, moved]
    simp only [close, hframes, hmoved, hindex, hdepth]
    by_cases hkind : frame.kind = kind
    · simp only [Frame.renumber, hkind, if_true, moved_pop]
      rfl
    · simp only [Frame.renumber, hkind, if_false, moved_report, moved_popMany]
      rfl

/-- A moved builder reads a token outside strings as before. -/
theorem moved_read : (b.moved f i l).read t = (b.read t).moved f i l := by
  subst hi
  cases hkind : t.kind with
  | bracket kind side =>
    cases side with
    | opening =>
      cases hpending : b.pending <;>
        simp [read, hkind, moved, hpending, Pending.renumber, Frame.renumber]
    | closing => simpa [read, hkind] using moved_close f l t rfl kind
  | newline =>
    cases hweak : b.weakAllowed with
    | true =>
      have hmoved : (b.moved f (f b.index) l).weakAllowed = true := hweak
      simp only [read, hkind, hweak, hmoved, if_true]
      exact moved_push_weak f l b (.separator true t.range (.single b.index)) false
    | false => simp [read, hkind, moved, hweak]
  | comma =>
    simp only [read, hkind]
    exact moved_push_weak f l b (.separator false t.range (.single b.index)) true
  | literal literal =>
    simp only [read, hkind, foldl_report]
    exact moved_push_weak f l { b with diagnostics := b.diagnostics ++ (literal.read t).2 }
      (.value (literal.read t).1 t.range (.single b.index)) true
  | quote side =>
    cases side with
    | opening => simp [read, hkind, moved, Pending.renumber, OpenString.renumber]
    | closing => simp [read, hkind, moved_invalid]
  | key => simp [read, hkind, moved, Pending.renumber]
  | tag => simp [read, hkind, moved, Pending.renumber, Tag.renumber]
  | ignored => simp [read, hkind]
  | _ => simp [read, hkind, moved_invalid]

/-- A moved builder completes what is pending and reads on. -/
theorem moved_complete_read (c : Chunk) (weak : Bool) :
    ((b.moved f i l).complete (c.renumber f) weak).read t =
      ((b.complete c weak).read t).moved f i l := by
  rw [moved_complete, moved_read]
  rwa [index_complete]

/-- A moved builder reads a token inside a string as before. -/
theorem moved_readInString (s : OpenString) :
    (b.moved f i l).readInString (s.renumber f) t = (b.readInString s t).moved f i l := by
  let d := Diagnostic.error .unterminatedString s.range "Unterminated string."
  have hcut : (((b.moved f i l).report d).complete (s.renumber f).chunk true).read t =
      (((b.report d).complete s.chunk true).read t).moved f i l :=
    moved_complete_read f l t (b := b.report d) hi s.chunk true
  cases hkind : t.kind with
  | stringText escape =>
    subst hi
    cases escape with
    | false =>
      simp only [readInString, hkind]
      rfl
    | true =>
      cases hdecode : Escape.decode? t.text.toList with
      | none | some c =>
        simp only [readInString, hkind, hdecode]
        rfl
  | newline | invalid unknown =>
    subst hi
    simp only [readInString, hkind]
    rfl
  | quote side =>
    cases side with
    | opening =>
      simp only [readInString, hkind]
      exact hcut
    | closing =>
      subst hi
      simp only [readInString, hkind]
      exact moved_complete f l b (s.extend "" t b.index).chunk true
  | _ =>
    simp only [readInString, hkind]
    exact hcut

/-- A token is read in the same way under other numbers, as long as the number of this token is
right. -/
theorem moved_readNext : (b.moved f i l).readNext t = (b.readNext t).moved f i l := by
  have hindex : (b.moved f i l).index = f b.index := hi.symm
  cases hpending : b.pending with
  | none =>
    have hmoved : (b.moved f i l).pending = .none := by simp [moved, hpending, Pending.renumber]
    simpa [readNext, hpending, hmoved] using moved_read f l t hi
  | tag mark =>
    have hmoved : (b.moved f i l).pending = .tag (mark.renumber f) := by
      simp [moved, hpending, Pending.renumber]
    cases hkeeps : keepsTag t with
    | true => simpa [readNext, hpending, hmoved, hkeeps] using moved_read f l t hi
    | false =>
      simp only [readNext, hpending, hmoved, hkeeps]
      exact moved_complete_read f l t hi mark.unit true
  | key key j =>
    have hmoved : (b.moved f i l).pending = .key key (f j) := by
      simp [moved, hpending, Pending.renumber]
    cases hkind : t.kind with
    | ignored => simp [readNext, hpending, hmoved, hkind]
    | colon =>
      simp only [readNext, hpending, hmoved, hkind, hindex]
      exact moved_complete f l b (keyWithColon key j t b.index) false
    | _ =>
      simp only [readNext, hpending, hmoved, hkind]
      exact moved_complete_read f l t hi (bareKey key j) false
  | string s =>
    have hmoved : (b.moved f i l).pending = .string (s.renumber f) := by
      simp [moved, hpending, Pending.renumber]
    simpa only [readNext, hpending, hmoved] using moved_readInString f l t hi s

omit hi

/-- A moved builder settles what is pending as before. -/
theorem moved_settle : (b.moved f i b.last).settle = b.settle.moved f i b.last := by
  cases hpending : b.pending with
  | none => simp [settle, moved, hpending, Pending.renumber]
  | tag mark =>
    have hmoved : (b.moved f i b.last).pending = .tag (mark.renumber f) := by
      simp [moved, hpending, Pending.renumber]
    simp only [settle, hpending, hmoved]
    exact moved_complete f b.last b mark.unit true
  | key key j =>
    have hmoved : (b.moved f i b.last).pending = .key key (f j) := by
      simp [moved, hpending, Pending.renumber]
    simp only [settle, hpending, hmoved]
    exact moved_complete f b.last b (bareKey key j) false
  | string s =>
    have hmoved : (b.moved f i b.last).pending = .string (s.renumber f) := by
      simp [moved, hpending, Pending.renumber]
    simp only [settle, hpending, hmoved]
    rfl

/-- The tokens end in the same way under other numbers, if the last token and its number are
right. -/
theorem moved_finish (hi : f (b.index - 1) = i - 1) :
    (b.moved f i b.last).finish = b.finish.moved f i b.last := by
  have hlast : (b.settle.moved f i b.last).last = b.settle.last := (last_settle b).symm
  have hempty : (b.settle.moved f i b.last).frames.isEmpty = b.settle.frames.isEmpty := by
    simp [moved]
  have hdepth : (b.settle.moved f i b.last).depth = b.settle.depth := by simp [depth, moved]
  have hearly : (b.settle.moved f i b.last).endTooEarly =
      b.settle.endTooEarly.moved f i b.last := by
    rw [endTooEarly, endOfInput, hlast, moved_report]
    rfl
  have hindex : (b.settle.moved f i b.last).index - 1 = f (b.settle.index - 1) := by
    rw [index_settle, hi]
    rfl
  rw [finish, moved_settle, hlast, hempty, hearly, hindex, hdepth]
  unfold finish
  dsimp only
  split
  · split
    · rfl
    · exact moved_popMany f b.last _ _ _ _
  · rfl

end Builder

end Chunk

/-! ### Reading chunks as data -/

namespace Sequence

variable (f : Nat → Nat)

/-- An item under other numbers. -/
def Item.renumber (x : Item) : Item :=
  ⟨x.chunk.renumber f, x.data.map fun p => (p.1.renumber f, p.2)⟩

/-- Whether a separator is expected does not depend on numbers. -/
theorem expectedSeparator_renumber (previous : Option Item) (c : Chunk) :
    expectedSeparator (previous.map (Item.renumber f)) (c.renumber f) =
      expectedSeparator previous c := by
  cases previous <;> simp [expectedSeparator, commaBefore, Item.renumber]

/-- Whether commas alone lead to an edge does not depend on numbers. -/
theorem reachesEdge_renumber (items : List Item) :
    reachesEdge (items.map (Item.renumber f)) = reachesEdge items := by
  induction items with
  | nil => rfl
  | cons x rest ih =>
    obtain ⟨c, data⟩ := x
    rcases c with _ | ⟨_, _, _ | _, _, _⟩ | _ | _ | ⟨_ | _, _, _⟩
    all_goals simp [reachesEdge, Item.renumber, Chunk.renumber, ih]

/-- Whether a comma is needless does not depend on numbers. -/
theorem needlessComma_renumber (before after : List Item) (c : Chunk) :
    needlessComma (before.map (Item.renumber f)) (c.renumber f) (after.map (Item.renumber f)) =
      needlessComma before c after := by
  rcases c with _ | ⟨_, _, _ | _, _, _⟩ | _ | _ | ⟨_ | _, _, _⟩
  all_goals simp [needlessComma, Chunk.renumber, reachesEdge_renumber]

/-- Whether the last value is missing does not depend on numbers. -/
theorem missingLast_renumber (items : List Item) :
    missingLast (items.map (Item.renumber f)) = missingLast items := by
  rcases eq_nil_or_concat items with rfl | ⟨front, x, rfl⟩
  · rfl
  · simp [missingLast, Item.renumber]

/-- The flags for separators do not depend on numbers. -/
theorem Separators.step_renumber (s : Separators) (weak : Bool) (before after : List Item)
    (c : Chunk) :
    s.step weak (before.map (Item.renumber f)) (c.renumber f) (after.map (Item.renumber f)) =
      s.step weak before c after := by
  simp only [step, needlessComma_renumber]

/-- What is known inside a list, under other numbers. -/
def ListState.renumber (s : ListState) : ListState :=
  { s with items := s.items.map (Data.renumber f) }

/-- A step in a list commutes with renumbering. -/
theorem ListState.step_renumber (s : ListState) (before : List Item) (x : Item)
    (after : List Item) :
    (s.renumber f).step (before.map (Item.renumber f)) (x.renumber f)
      (after.map (Item.renumber f)) =
      (s.step before x after).renumber f := by
  obtain ⟨c, _ | ⟨data, problems⟩⟩ := x
  · rcases c with ⟨⟨_, _, _, _⟩⟩ | ⟨_, _, _ | _, _, _⟩ | _ | _ | ⟨weak, r, n⟩
    case separator =>
      have hstep := s.separators.step_renumber f weak before after (.separator weak r n)
      simp only [Chunk.renumber] at hstep
      simp only [Item.renumber, Chunk.renumber, step, renumber, hstep, Option.map_none]
      rcases s.separators.step weak before (.separator weak r n) after with ⟨_ | _ | _, _, _⟩ <;>
        rfl
    all_goals rfl
  · cases hexpecting : s.expectingValue <;>
      simp [Item.renumber, step, renumber, report, hexpecting, expectedSeparator_renumber]

/-- A run through a list commutes with renumbering. -/
theorem ListState.run_renumber (s : ListState) (before items : List Item) :
    (s.renumber f).run (before.map (Item.renumber f)) (items.map (Item.renumber f)) =
      (s.run before items).renumber f := by
  induction items generalizing s before with
  | nil => rfl
  | cons x rest ih => rw [map_cons, run, step_renumber, ← map_cons, ih, run]

/-- A list is read to the same elements under the new numbers. -/
theorem list_renumber (items : List Item) :
    list (items.map (Item.renumber f)) =
      ((list items).1.map (Data.renumber f), (list items).2) := by
  have hrun : ListState.run {} [] (items.map (Item.renumber f)) =
      (ListState.run {} [] items).renumber f := ListState.run_renumber f {} [] items
  simp only [list, missingLast_renumber, hrun]
  rfl

/-- What is known inside a dict, under other numbers. -/
def DictState.renumber (s : DictState) : DictState :=
  { s with entries := s.entries.map fun e => (e.1, e.2.renumber f) }

/-- A step in a dict commutes with renumbering. -/
theorem DictState.step_renumber (s : DictState) (before : List Item) (x : Item)
    (after : List Item) :
    (s.renumber f).step (before.map (Item.renumber f)) (x.renumber f)
      (after.map (Item.renumber f)) =
      (s.step before x after).renumber f := by
  obtain ⟨c, _ | ⟨data, problems⟩⟩ := x
  · rcases c with _ | ⟨_, _, _ | _, _, _⟩ | ⟨name, nameRange, r, n⟩ | _ | ⟨weak, r, n⟩
    case separator =>
      have hstep := s.separators.step_renumber f weak before after (.separator weak r n)
      simp only [Chunk.renumber] at hstep
      simp only [Item.renumber, Chunk.renumber, step, stepSeparator, renumber, hstep,
        Option.map_none]
      rcases s.separators.step weak before (.separator weak r n) after with ⟨_ | _ | _, _, _⟩ <;>
        rfl
    case key =>
      have hseparator := expectedSeparator_renumber f before.head? (.key name nameRange r n)
      simp only [Chunk.renumber] at hseparator
      simp only [Item.renumber, Chunk.renumber, step, stepKey, renumber, head?_map, hseparator,
        Option.map_none]
      cases s.keyRanges.any (·.1 == name) <;> rfl
    all_goals rfl
  · rcases hpending : s.pendingKey with _ | ⟨name, _ | _⟩ <;>
      simp [Item.renumber, step, stepValue, renumber, report, hpending, expectedKey,
        expectedSeparatorUnfixed]

/-- A run through a dict commutes with renumbering. -/
theorem DictState.run_renumber (s : DictState) (before items : List Item) :
    (s.renumber f).run (before.map (Item.renumber f)) (items.map (Item.renumber f)) =
      (s.run before items).renumber f := by
  induction items generalizing s before with
  | nil => rfl
  | cons x rest ih => rw [map_cons, run, step_renumber, ← map_cons, ih, run]

/-- Renumbered chunks have the same contents, with the same findings. -/
theorem contents_renumber (kind : BlockKind) (items : List Item) :
    contents kind (items.map (Item.renumber f)) =
      (Data.renumberContents f (contents kind items).1, (contents kind items).2) := by
  cases kind with
  | dict =>
    have hrun : DictState.run {} [] (items.map (Item.renumber f)) =
        (DictState.run {} [] items).renumber f := DictState.run_renumber f {} [] items
    simp only [contents, dict, missingLast_renumber, hrun, DictState.renumber,
      Data.renumberContents, Data.renumberEntries_eq]
  | array | tuple => simp [contents, list_renumber, Data.renumberContents, Data.renumberItems_eq]

end Sequence

namespace Chunk

mutual

/-- A renumbered chunk is read as the same data, with the same findings. -/
theorem data?_renumber (f : Nat → Nat) : ∀ c : Chunk,
    (c.renumber f).data? = c.data?.map fun p => (p.1.renumber f, p.2)
  | .value _ _ _ => rfl
  | .block b | .enum _ _ (some b) _ _ => by
    simp [renumber, data?, blockData_renumber f b, Data.renumber]
  | .enum _ _ none _ _ => rfl
  | .key _ _ _ _ => rfl
  | .separator _ _ _ => rfl

/-- The same for a block, by the items inside it. -/
theorem blockData_renumber (f : Nat → Nat) : ∀ b : Bracketed Chunk,
    blockData (renumberBlock f b) = (Data.renumberBlock f (blockData b).1, (blockData b).2)
  | ⟨kind, children, r, n⟩ => by
    simp [renumberBlock, blockData, items_renumber f children, Sequence.contents_renumber,
      Data.renumberBlock]

/-- The same for a sequence of chunks. -/
theorem items_renumber (f : Nat → Nat) : ∀ cs : List Chunk,
    items (renumberList f cs) = (items cs).map (Sequence.Item.renumber f)
  | [] => rfl
  | c :: cs => by
    simp [renumberList, items, data?_renumber f c, items_renumber f cs, Sequence.Item.renumber]

end

end Chunk

/-- The data of chunks under other numbers is the same data under these numbers, with the same
findings. -/
theorem Data.ofChunks_renumber (f : Nat → Nat) (chunks : List Chunk) (earlier : Report) :
    ofChunks (chunks.map (Chunk.renumber f)) earlier =
      ((ofChunks chunks earlier).1.map (renumber f), (ofChunks chunks earlier).2) := by
  have hfilter : (chunks.map (Chunk.renumber f)).filter Chunk.isValue =
      (chunks.filter Chunk.isValue).map (Chunk.renumber f) := by
    rw [filter_map]
    simp [Function.comp_def]
  have hcovering : ∀ (r : Range) (cs : List Chunk),
      (cs.map (Chunk.renumber f)).foldl (fun r d => r.combine d.range) r =
        cs.foldl (fun r d => r.combine d.range) r := by
    simp [foldl_map]
  simp only [ofChunks, flatMap_map, Chunk.illegalTopLevel_renumber, hfilter]
  split
  · rfl
  · rcases chunks.filter Chunk.isValue with _ | ⟨c, _ | ⟨d, rest⟩⟩
    · rfl
    · simp only [map_cons, map_nil, Chunk.data?_renumber]
      cases c.data? <;> rfl
    · simp [coveringRange, hcovering]

end TypedNotation
