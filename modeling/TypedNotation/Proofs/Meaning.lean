import TypedNotation.Proofs.BracketDepth

/-!
# The meaning of marks

The value of a document without errors is a matter of its marks alone, and it can be read off them
from left to right. `Meaning` is what is known on the way: the values and keys of the open blocks,
and what is not complete yet. A builder stands for a meaning (`Chunk.Builder.meaning`), and as long
as nothing is wrong, reading a token changes the meaning as its mark does
(`Chunk.Builder.meaning_step`). So the value of an accepted document is what its marks mean
(`Document.Accepted.meaning`).
-/

namespace TypedNotation

open Token
open Sequence (Level)

/-! ### Layers -/

/-- An open block, as far as its value goes. -/
structure Layer where
  kind : BlockKind
  /-- The name of the tag whose payload the block is. -/
  tag : Option String
  keys : List String := []
  values : List Value := []

namespace Layer

/-- The value between the brackets. -/
def contents (l : Layer) : Value :=
  match l.kind with
  | .dict => .dict (l.keys.zip l.values)
  | .array => .array l.values
  | .tuple => .tuple l.values

/-- The value of the block with its tag. -/
def value (l : Layer) : Value :=
  match l.tag with
  | some name => .enum name (some l.contents)
  | none => l.contents

end Layer

/-! ### Meanings -/

/-- What is not complete. -/
inductive Meaning.Pending where
  | none
  /-- A tag that may get a payload. -/
  | tag (name : String)
  /-- A key without its colon. -/
  | key (name : String)
  | string (text : String)

/-- What some marks mean. -/
structure Meaning where
  /-- The open blocks, innermost first. -/
  layers : List Layer := []
  /-- The values outside of all blocks. -/
  top : List Value := []
  pending : Meaning.Pending := .none

/-- The scalar that a literal is written for. -/
def Literal.scalar (l : Literal) (text : String) : Scalar :=
  (l.read ⟨.literal l, default, text, 0⟩).1

/-- A literal is read as its scalar. -/
theorem Literal.read_fst (l : Literal) (t : Token) : (l.read t).1 = l.scalar t.text := by
  cases l with
  | boolean => rfl
  | int | float =>
    simp only [scalar, read]
    split <;> rfl

/-- The name of a tag. -/
def Mark.tagName (m : Mark) : String :=
  String.ofList (m.text.toList.dropWhile (· == '#'))

namespace Meaning

/-- With a key or a value more in the innermost block. -/
def add (s : Meaning) (key? : Option String) (value? : Option Value) : Meaning :=
  match s.layers with
  | [] => { s with top := s.top ++ value?.toList }
  | l :: ls =>
    { s with
      layers :=
        { l with keys := l.keys ++ key?.toList, values := l.values ++ value?.toList } :: ls }

/-- Reads a value. -/
def put (s : Meaning) (v : Value) : Meaning :=
  s.add none (some v)

/-- Completes what is pending outside of strings. -/
def settle (s : Meaning) : Meaning :=
  match s.pending with
  | .tag name => { s.put (.enum name none) with pending := .none }
  | .key name => { s.add (some name) none with pending := .none }
  | .none | .string _ => s

/-- Opens a block. -/
def enter (s : Meaning) (kind : BlockKind) : Meaning :=
  let tag := match s.pending with
    | .tag name => some name
    | _ => Option.none
  { s with layers := ⟨kind, tag, [], []⟩ :: s.layers, pending := .none }

/-- Closes a block. -/
def leave (s : Meaning) : Meaning :=
  match s.layers with
  | [] => s
  | l :: ls => put { s with layers := ls } l.value

/-- Reads a mark outside of keys and strings. -/
def read (s : Meaning) (m : Mark) : Meaning :=
  match m.kind with
  | .newline | .comma => s.settle
  | .literal l => s.settle.put (.scalar (l.scalar m.text))
  | .key => { s.settle with pending := .key m.text }
  | .quote .opening => { s.settle with pending := .string "" }
  | .tag => { s.settle with pending := .tag m.tagName }
  | .bracket kind .opening => s.enter kind
  | .bracket _ .closing => s.settle.leave
  | .colon | .quote .closing | .stringText _ | .invalid _ | .ignored => s.settle

/-- Reads a mark in a string. -/
def readInString (s : Meaning) (text : String) (m : Mark) : Meaning :=
  match m.kind with
  | .stringText false => { s with pending := .string (text ++ m.text) }
  | .stringText true =>
    { s with
      pending :=
        .string (text ++ ((Escape.decode? m.text.toList).map String.singleton).getD "") }
  | .newline => { s with pending := .string (text ++ "\n") }
  | .quote .closing => { s.put (.scalar (.string text)) with pending := .none }
  | _ => s

/-- Reads a mark. -/
def step (s : Meaning) (m : Mark) : Meaning :=
  if m.kind = .ignored then s
  else
    match s.pending with
    | .none | .tag _ => s.read m
    | .key _ => if m.kind = .colon then s.settle else s.settle.read m
    | .string text => s.readInString text m

/-- Reads marks. -/
def run (s : Meaning) (ms : List Mark) : Meaning :=
  ms.foldl step s

@[simp] theorem run_nil (s : Meaning) : s.run [] = s := rfl

@[simp] theorem run_cons (s : Meaning) (m : Mark) (ms : List Mark) :
    s.run (m :: ms) = (s.step m).run ms := rfl

/-- The meaning of two parts, one behind the other. -/
theorem run_append (s : Meaning) (ms ns : List Mark) : s.run (ms ++ ns) = (s.run ms).run ns :=
  List.foldl_append

theorem step_of_ignored (s : Meaning) {m : Mark} (h : m.kind = .ignored) : s.step m = s :=
  if_pos h

theorem settle_of_none {s : Meaning} (h : s.pending = .none) : s.settle = s := by
  simp [settle, h]

/-- Settling twice is settling once. -/
theorem settle_settle (s : Meaning) : s.settle.settle = s.settle := by
  cases h : s.pending <;> simp [settle, h]

/-- All marks but opening brackets complete what is pending. -/
theorem read_settle (s : Meaning) {m : Mark} (h : ∀ kind, m.kind ≠ .bracket kind .opening) :
    s.settle.read m = s.read m := by
  cases hm : m.kind with
  | bracket kind side =>
    cases side with
    | opening => exact absurd hm (h kind)
    | closing => simp only [read, hm, settle_settle]
  | quote side => cases side <;> simp only [read, hm, settle_settle]
  | _ => simp only [read, hm, settle_settle]

@[simp] theorem add_none (s : Meaning) : s.add none none = s := by
  unfold add
  split
  · simp
  next l ls h => simp [← h]

end Meaning

/-! ### Blocks -/

namespace Chunk

/-- The value that a chunk stands for. -/
def meaning? (c : Chunk) : Option Value :=
  c.value?.map Data.value

theorem filterMap_meaning? (cs : List Chunk) :
    cs.filterMap meaning? = (cs.filterMap value?).map Data.value := by
  rw [List.map_filterMap]
  rfl

/-- The name of a key. -/
def keyName? : Chunk → Option String
  | .key name _ _ _ => some name
  | _ => none

theorem keyNames_eq (cs : List Chunk) : keyNames cs = cs.filterMap keyName? := by
  rw [keyNames, List.map_filterMap]
  congr 1
  funext c
  cases c <;> rfl

/-- An open block as a layer. -/
def Frame.layer (f : Frame) : Layer where
  kind := f.kind
  tag := f.tag.map (·.name)
  keys := f.children.filterMap keyName?
  values := f.children.filterMap meaning?

end Chunk

namespace Sequence

/-- The value of a block in sequence. -/
theorem contentsValue_of_run {kind : BlockKind} {cs : List Chunk} {l : Level}
    (h : (Level.inside kind).run cs = some l) (hcomplete : l.isComplete = true)
    (tag : Option String) :
    Data.contentsValue (contents kind (Chunk.items cs)).1 =
      Layer.contents ⟨kind, tag, cs.filterMap Chunk.keyName?, cs.filterMap Chunk.meaning?⟩ := by
  obtain ⟨-, hchildren⟩ := contents_of_run h hcomplete
  rw [Chunk.filterMap_meaning?, ← hchildren]
  cases kind with
  | dict =>
    obtain ⟨entries, ranges, hcontents, hnames⟩ := names_of_run h hcomplete
    rw [hcontents, ← Chunk.keyNames_eq, ← hnames, Data.contentsValue, Data.entryValues_eq,
      Layer.contents]
    simp [Contents.children, List.zip_map']
  | array => exact congrArg Value.array (Data.itemValues_eq _)
  | tuple => exact congrArg Value.tuple (Data.itemValues_eq _)

end Sequence

/-! ### What a builder means -/

namespace Chunk

/-- The chunk of a block in sequence stands for the value of its layer. -/
theorem Frame.meaning?_chunk {f : Frame} {l : Level}
    (h : (Level.inside f.kind).run f.children = some l) (hcomplete : l.isComplete = true)
    (t : Token) (index : Nat) : (f.chunk t index).meaning? = some f.layer.value := by
  have hcontents := Sequence.contentsValue_of_run h hcomplete (f.tag.map (·.name))
  unfold Frame.chunk Layer.value
  cases htag : f.tag with
  | some tag | none =>
    simpa [meaning?, value?, data?, blockData, Data.value, layer, htag] using hcontents

/-- The chunk that is not complete. -/
def Pending.meaning : Pending → Meaning.Pending
  | .none => .none
  | .tag t => .tag t.name
  | .key t _ => .key t.text
  | .string s => .string s.text

namespace Builder

/-- What the tokens read so far mean. -/
def meaning (b : Builder) : Meaning where
  layers := b.frames.map Frame.layer
  top := b.top.filterMap meaning?
  pending := b.pending.meaning

variable {b : Builder} {t : Token} {config config' : Config}

/-- A chunk adds its key or its value. -/
theorem meaning_push (b : Builder) (c : Chunk) :
    (b.push c).meaning = b.meaning.add c.keyName? c.meaning? := by
  unfold push
  split
  next h => cases hc : c.meaning? <;> simp [meaning, Meaning.add, h, hc]
  next f fs h =>
    cases hc : c.meaning? <;> cases hk : c.keyName? <;>
      simp [meaning, Meaning.add, Frame.layer, h, hc, hk]

theorem meaning_complete (b : Builder) (c : Chunk) (weak : Bool) :
    (b.complete c weak).meaning =
      { b.meaning.add c.keyName? c.meaning? with pending := .none } := by
  rw [← meaning_push]
  rfl

/-- A pending tag or key is completed in the same way. -/
theorem meaning_unit {tag : Tag} (h : b.pending = .tag tag) :
    (b.complete tag.unit true).meaning = b.meaning.settle := by
  rw [meaning_complete, Meaning.settle]
  simp [meaning, h, Pending.meaning, Tag.unit, keyName?, meaning?, value?, data?, Data.value,
    Meaning.put]

/-- Completing a key settles it. -/
theorem meaning_key {k : Token} {i : Nat} (h : b.pending = .key k i) (r : Range) (n : TokenRange)
    (weak : Bool) : (b.complete (.key k.text k.range r n) weak).meaning = b.meaning.settle := by
  rw [meaning_complete, Meaning.settle]
  simp [meaning, h, Pending.meaning, keyName?, meaning?, value?, data?]

/-- A builder that matches the grammar has reported nothing. -/
theorem diagnostics_of_config? (h : b.config? = some config) : b.diagnostics = [] := by
  by_contra hbad
  rw [config?_eq_none hbad] at h
  cases h

/-- Reading a closing bracket. -/
theorem meaning_close (hconfig : b.config? = some config) (hpending : b.pending = .none)
    {kind : BlockKind} (hleave : config.leave kind = some config') :
    (b.close t kind).meaning = b.meaning.leave := by
  rw [config?_eq (diagnostics_of_config? hconfig), hpending] at hconfig
  cases hframes : b.frames with
  | nil =>
    rw [hframes] at hconfig
    obtain ⟨found, hfound, rfl⟩ := Option.map_eq_some_iff.1 hconfig
    obtain ⟨l, -, rfl⟩ := Option.map_eq_some_iff.1 hfound
    cases hleave
  | cons f fs =>
    rw [hframes] at hconfig
    simp only [levels?, Pending.count, Option.map_eq_some_iff, Option.bind_eq_some_iff] at hconfig
    obtain ⟨-, ⟨l, hrun, m, hm, found, -, rfl⟩, rfl⟩ := hconfig
    obtain rfl := Option.some.inj hm
    simp only [Config.leave, Option.ite_none_right_eq_some] at hleave
    obtain ⟨⟨hkind, hcomplete⟩, -⟩ := hleave
    obtain rfl : f.kind = kind := Option.some.inj ((kind_of_run hrun).symm.trans hkind)
    have hmeaning : (b.close t f.kind).meaning =
        (push { b with frames := fs } (f.chunk t b.index)).meaning := by
      rw [b.close_of_frames t hframes]
      rfl
    have hkey : (f.chunk t b.index).keyName? = none := by
      cases htag : f.tag <;> simp [Frame.chunk, htag, keyName?]
    rw [hmeaning, meaning_push, hkey, f.meaning?_chunk hrun hcomplete]
    simp [meaning, Meaning.leave, hframes, Meaning.put]

/-- Reading a token with nothing pending. -/
theorem meaning_read (hconfig : b.config? = some config) (hpending : b.pending = .none)
    (hread : config.read t.mark = some config') : (b.read t).meaning = b.meaning.read t.mark := by
  have hnone : b.meaning.settle = b.meaning := by
    simp [Meaning.settle, meaning, hpending, Pending.meaning]
  have hpush : ∀ (c : Chunk) (weak : Bool), meaning { b.push c with weakAllowed := weak } =
      b.meaning.add c.keyName? c.meaning? := fun c weak => meaning_push b c
  cases hk : t.kind with
  | newline =>
    simp only [read, hk, Meaning.read, mark, hnone]
    split
    · rw [hpush]
      exact Meaning.add_none _
    · rfl
  | comma =>
    simp only [read, hk, Meaning.read, mark, hnone]
    rw [hpush]
    exact Meaning.add_none _
  | literal l =>
    simp only [read, hk, Meaning.read, mark, hnone, foldl_report]
    rw [← l.read_fst t]
    exact meaning_push _ _
  | key | tag =>
    simp only [read, hk, Meaning.read, mark, hnone]
    rfl
  | quote side =>
    cases side with
    | opening =>
      simp only [read, hk, Meaning.read, mark, hnone]
      rfl
    | closing => simp [Config.read, mark, hk] at hread
  | bracket kind side =>
    cases side with
    | opening =>
      simp [read, hk, Meaning.read, mark, Meaning.enter, meaning, hpending, Pending.meaning,
        Frame.layer]
    | closing =>
      simp only [read, hk, Meaning.read, mark, hnone]
      simp only [Config.read, mark, hk] at hread
      exact meaning_close hconfig hpending hread
  | _ => simp [Config.read, mark, hk] at hread

/-- A pending chunk is complete, and a token is read behind it. -/
theorem meaning_read_complete (hconfig : b.config? = some config) {c : Chunk}
    (hcount : ∀ l : Level, l.next c = b.pending.count l) {weak : Bool}
    (hmeaning : (b.complete c weak).meaning = b.meaning.settle)
    (hread : { config with wait := .nothing }.read t.mark = some config') :
    ((b.complete c weak).read t).meaning = b.meaning.settle.read t.mark := by
  have hcomplete := config?_complete (diagnostics_of_config? hconfig) hcount weak
  rw [hconfig] at hcomplete
  rw [← hmeaning]
  exact meaning_read hcomplete rfl hread

/-- **Reading a token.** As long as nothing is wrong, a token changes what a builder means as its
mark does. -/
theorem meaning_step (hconfig : b.config? = some config) (hstep : config.step t.mark = some config')
    (hstring : b.InString → t.kind ≠ .ignored) : (b.step t).meaning = b.meaning.step t.mark := by
  have hnext : (b.step t).meaning = (b.readNext t).meaning := rfl
  have hwait := wait_of_config? hconfig
  have hmeaning : b.meaning.pending = b.pending.meaning := rfl
  have houtcome := outcome_readNext b t
  rw [hnext]
  generalize b.readNext t = b' at houtcome ⊢
  -- a comment is passed over by both, whatever is pending
  by_cases hignored : t.mark.kind = .ignored
  · rw [Meaning.step_of_ignored _ hignored]
    have ht : t.kind = .ignored := hignored
    cases houtcome with
    | skip => rfl
    | text hpending | badText hpending | closingQuote hpending | cut hpending =>
      exact absurd ht (hstring ⟨_, hpending⟩)
    | _ => simp_all [keepsTag]
  rw [Config.step, if_neg hignored, hwait] at hstep
  rw [Meaning.step, if_neg hignored, hmeaning]
  cases houtcome with
  | skip _ ht => exact absurd ht hignored
  | read hpending _ =>
    rw [hpending] at hstep ⊢
    exact meaning_read hconfig hpending hstep
  | invalid hpending ht =>
    rw [hpending] at hstep
    simp [Pending.wait, Config.read, mark, ht] at hstep
  | payload hpending ht =>
    simp [hpending, Pending.meaning, Meaning.read, mark, ht, Meaning.enter, meaning,
      Frame.layer]
  | unit hpending hkeeps =>
    have hopening : ∀ kind, t.mark.kind ≠ .bracket kind .opening := by
      intro kind hk
      simp [keepsTag, show t.kind = _ from hk] at hkeeps
    rw [hpending] at hstep ⊢
    simp only [Pending.wait, Pending.meaning] at hstep ⊢
    rw [← read_of_keepsTag_eq_false hkeeps config .nothing] at hstep
    rw [← Meaning.read_settle _ hopening]
    exact meaning_read_complete hconfig (fun l => by rw [next_unit, hpending]; rfl)
      (meaning_unit hpending) hstep
  | colon hpending ht =>
    rw [hpending]
    simp only [Pending.meaning, show t.mark.kind = .colon from ht, if_true]
    exact meaning_key hpending _ _ false
  | bareKey hpending _ hcolon =>
    rw [hpending] at hstep ⊢
    simp only [Pending.wait, Pending.meaning, show t.mark.kind ≠ .colon from hcolon,
      if_false] at hstep ⊢
    exact meaning_read_complete hconfig (fun l => by rw [hpending]; rfl)
      (meaning_key hpending _ _ false) hstep
  | text hpending hpart =>
    rw [hpending]
    unfold stringPart? at hpart
    split at hpart
    next ht =>
      obtain rfl := Option.some.inj hpart
      simp only [Pending.meaning, Meaning.readInString, mark, ht]
      rfl
    next ht =>
      simp only [Pending.meaning, Meaning.readInString, mark, ht, hpart]
      rfl
    next ht =>
      obtain rfl := Option.some.inj hpart
      simp only [Pending.meaning, Meaning.readInString, mark, ht]
      rfl
    next => cases hpart
  | badText hpending hkeeps hpart =>
    rw [hpending] at hstep
    have hquote : t.kind ≠ .quote .closing := fun hquote => by simp [keepsString, hquote] at hkeeps
    cases (readInString_eq_none hpart hquote config).symm.trans hstep
  | closingQuote hpending ht =>
    rw [hpending]
    simp only [Pending.meaning, Meaning.readInString, mark, ht]
    rw [meaning_complete]
    simp [OpenString.extend, OpenString.chunk, keyName?, meaning?, value?, data?, Data.value,
      Meaning.put]
  | cut hpending hkeeps hquote =>
    rw [hpending] at hstep
    cases (readInString_eq_none (stringPart?_eq_none hkeeps) hquote config).symm.trans hstep

end Builder

end Chunk

/-! ### Runs -/

open Chunk (Builder)

/-- What a builder means that walks through the tokens of a text. -/
theorem Walk.meaning_run {s last : Scanner} {vs : List Visit} (h : Walk s vs last) {b : Builder}
    (hb : InStep s b) (hready : b.Ready) {config config' : Config}
    (hconfig : b.config? = some config) (hrun : config.run (vs.map (·.token.mark)) = some config') :
    (b.run (vs.map (·.token))).meaning = b.meaning.run (vs.map (·.token.mark)) := by
  induction h generalizing b config with
  | nil => rfl
  | @cons s next last t vs hmoves _ ih =>
    have hstring := hb.kind_ne_ignored hmoves
    rw [List.map_cons, Config.run_cons] at hrun
    obtain ⟨c, hc, hrest⟩ := Option.bind_eq_some_iff.1 hrun
    obtain ⟨hnext, hready'⟩ := Builder.config?_step hready hstring
    rw [hconfig, Option.bind_some, hc] at hnext
    rw [List.map_cons, Builder.run_cons, ih (hb.step hmoves) hready' hnext hrest, List.map_cons,
      Meaning.run_cons, Builder.meaning_step hconfig hc hstring]

namespace Document

/-- The builder of a text has the meaning of its marks. -/
theorem meaning_builderOf {text : String} {config : Config}
    (h : Config.run {} (marksOf text) = some config) :
    (builderOf text).meaning = Meaning.run {} (marksOf text) := by
  rw [← map_mark_visits] at h
  have hrun := (walk_visits text).meaning_run .start (fun _ _ => rfl) rfl h
  rw [map_token_visits, map_mark_visits] at hrun
  exact hrun

end Document

/-- What is pending outside of strings is completed in the same way. -/
theorem Chunk.Builder.meaning_settle {b : Builder} (h : ¬b.InString) :
    b.settle.meaning = b.meaning.settle := by
  cases hpending : b.pending with
  | none => simp [settle, hpending, Meaning.settle, meaning, Pending.meaning]
  | tag tag =>
    rw [settle, hpending]
    exact meaning_unit hpending
  | key k i =>
    rw [settle, hpending]
    exact meaning_key hpending _ _ false
  | string s => exact absurd ⟨s, hpending⟩ h

/-- **The value of a document without errors is what its marks mean.** -/
theorem Document.Accepted.meaning {text : String} {c : Chunk} {data : Data}
    (h : Accepted text c data) : (Meaning.run {} (marksOf text)).settle.top = [data.value] := by
  obtain ⟨config, hconfig⟩ : ∃ config, Config.run {} (marksOf text) = some config := by
    rw [← config?_builderOf, Chunk.Builder.config?_eq_of_frames h.frames h.string h.diagnostics,
      ← h.chunks, h.run]
    exact ⟨_, rfl⟩
  have hvalue : c.meaning? = some data.value := by simp [Chunk.meaning?, Chunk.value?, h.data?_eq]
  have hvalues : (parse text).chunks.filterMap Chunk.meaning? = [data.value] := by
    rw [Chunk.filterMap_meaning?, ← Chunk.filterMap_value?_filter, ← Chunk.filterMap_meaning?,
      h.values]
    simp [hvalue]
  rw [← meaning_builderOf hconfig, ← Chunk.Builder.meaning_settle h.string, ← hvalues, h.chunks]
  rfl

end TypedNotation
