import Mathlib.Data.List.Induction
import TypedNotation.Proofs.DataPlaces

/-!
# Documents without errors

Whether an error is found in a document can be told from its tokens, one by one, without building
anything. A `Config` holds the open blocks, each in its phase, and what is awaited; `Config.step`
reads a token by its `Mark` and fails where an error will be found.

What is known of a builder is a config (`Chunk.Builder.config?`), unless something is wrong in what
it has built. Reading a token is the same on both sides (`Chunk.Builder.config?_step`), so the
tokens of a document are accepted exactly if it has data and no error is found (`exists_accepted`,
`accepts_of_data`).

The builder takes for separators only the newlines behind a value or a comma, the config all of them
outside of keys. That this comes to the same is `Chunk.Builder.Ready`.
-/

namespace TypedNotation

open List Token Chunk.Builder Chunk Data
open Sequence (Level Phase)

/-- What of a token counts for the structure of a document. -/
structure Mark where
  kind : TokenKind
  text : String
  deriving DecidableEq

/-- A token without its place. -/
def Token.mark (t : Token) : Mark :=
  ⟨t.kind, t.text⟩

/-- Whether a literal is in range. -/
def Literal.fits (l : Literal) (text : String) : Bool :=
  (l.read ⟨.literal l, default, text, 0⟩).2.isEmpty

theorem Literal.read_snd_eq_nil_iff (l : Literal) (t : Token) :
    (l.read t).2 = [] ↔ l.fits t.text = true := by
  cases l with
  | boolean => simp [read, fits]
  | int | float =>
    simp only [read, fits]
    split <;> simp

/-! ### Configs -/

/-- What is awaited behind a token. -/
inductive Wait where
  | nothing
  /-- The payload of a tag. -/
  | payload
  /-- The colon of a key. -/
  | colon
  /-- The end of a string. -/
  | quote
  deriving DecidableEq

/-- The open blocks and what is awaited. -/
structure Config where
  /-- The innermost open block, or the document. -/
  level : Level := .outside
  /-- What is around it, from the inside. -/
  outer : List Level := []
  wait : Wait := .nothing
  deriving DecidableEq

namespace Config

/-- Reads something in the innermost block. -/
def put (c : Config) (read : Level → Option Level) (wait : Wait) : Option Config :=
  (read c.level).map fun l => { c with level := l, wait := wait }

/-- Opens a block. -/
def enter (c : Config) (kind : BlockKind) : Config :=
  ⟨.inside kind, c.level :: c.outer, .nothing⟩

/-- Closes a block. -/
def leave (c : Config) (kind : BlockKind) : Option Config :=
  match c.outer with
  | [] => none
  | l :: ls =>
    if c.level.kind = some kind ∧ c.level.isComplete then some ⟨l, ls, .nothing⟩ else none

/-- Reads a mark outside of strings. -/
def read (c : Config) (m : Mark) : Option Config :=
  match m.kind with
  | .newline => some { c with level := c.level.newline, wait := .nothing }
  | .comma => c.put Level.comma .nothing
  | .literal l => if l.fits m.text then c.put Level.value .nothing else none
  | .key => c.put (·.key m.text) .colon
  | .quote .opening => c.put Level.value .quote
  | .tag => c.put Level.value .payload
  | .bracket kind .opening =>
    if c.wait = .payload then some (c.enter kind)
    else (c.put Level.value .nothing).map (·.enter kind)
  | .bracket kind .closing => c.leave kind
  | .colon | .quote .closing | .stringText _ | .invalid _ | .ignored => none

/-- Reads a mark in a string. -/
def readInString (c : Config) (m : Mark) : Option Config :=
  match m.kind with
  | .stringText false | .newline => some c
  | .stringText true => if (Escape.decode? m.text.toList).isSome then some c else none
  | .quote .closing => some { c with wait := .nothing }
  | _ => none

/-- Reads a mark. -/
def step (c : Config) (m : Mark) : Option Config :=
  if m.kind = .ignored then some c
  else
    match c.wait with
    | .nothing | .payload => c.read m
    | .colon =>
      if m.kind = .colon then some { c with wait := .nothing }
      else { c with wait := .nothing }.read m
    | .quote => c.readInString m

/-- Reads marks. -/
def run (c : Config) (ms : List Mark) : Option Config :=
  ms.foldlM step c

/-- Whether a document may end. -/
def isFinal (c : Config) : Bool :=
  c.outer.isEmpty && c.level.phase == .item && c.wait != .quote

/-- Whether some marks are those of a document without errors. -/
def accepts (ms : List Mark) : Bool :=
  (run {} ms).any isFinal

@[simp] theorem run_nil (c : Config) : c.run [] = some c := rfl

theorem run_cons (c : Config) (m : Mark) (ms : List Mark) :
    c.run (m :: ms) = (c.step m).bind fun c => c.run ms := rfl

theorem run_append (c : Config) (ms ns : List Mark) :
    c.run (ms ++ ns) = (c.run ms).bind fun c => c.run ns := by
  simp [run, foldlM_append]

end Config

/-! ### What a builder knows -/

/-- What is found at the chunks of a block in sequence is no error. -/
theorem Sequence.all_findings_of_run {l l' : Level} {cs : List Chunk} (h : l.run cs = some l')
    {seen : List Chunk} : (findings seen cs).all (fun d => !d.isError) = true := by
  induction cs generalizing l seen with
  | nil => rfl
  | cons c cs ih =>
    rw [Level.run_cons] at h
    obtain ⟨m, hm, hrest⟩ := Option.bind_eq_some_iff.1 h
    rw [findings, all_append, ih hrest, Bool.and_true, ownFindings]
    cases hdata : c.data? with
    | some found =>
      rw [Level.next_of_data? hdata, Option.ite_none_right_eq_some] at hm
      exact hm.1
    | none =>
      dsimp only
      unfold needlessComma
      split
      · split <;> rfl
      · rfl

namespace Chunk

namespace Pending

/-- What is awaited. -/
def wait : Pending → Wait
  | .none => .nothing
  | .tag _ => .payload
  | .key _ _ => .colon
  | .string _ => .quote

/-- What a pending chunk is to its block. -/
def count (l : Level) : Pending → Option Level
  | .none => some l
  | .tag _ | .string _ => l.value
  | .key t _ => l.key t.text

end Pending

namespace Builder

/-- The phases of the open blocks, and of the document around them. What is given counts in the
innermost block. -/
def levels? (count : Level → Option Level) (top : List Chunk) :
    List Frame → Option (Level × List Level)
  | [] => ((Level.outside.run top).bind count).map (·, [])
  | f :: fs =>
    ((Level.inside f.kind).run f.children).bind fun l =>
      (count l).bind fun l => (levels? Level.value top fs).map fun (m, ms) => (l, m :: ms)

/-- What is known of the tokens read so far, unless something is wrong. -/
def config? (b : Builder) : Option Config :=
  if b.diagnostics = [] then
    (levels? (fun l => b.pending.count l) b.top b.frames).map fun (l, ls) => ⟨l, ls, b.pending.wait⟩
  else none

/-- The chunks of the innermost open block. -/
def innermost (b : Builder) : List Chunk :=
  match b.frames with
  | [] => b.top
  | f :: _ => f.children

/-- Whether a newline behind a chunk separates items. -/
def endsItem : Chunk → Bool
  | .key .. | .separator true _ _ => false
  | _ => true

/-- A newline separates items behind a value or a comma. -/
def Ready (b : Builder) : Prop :=
  b.diagnostics = [] → b.pending = .none → b.weakAllowed = b.innermost.getLast?.any endsItem

theorem config?_eq_none {b : Builder} (h : b.diagnostics ≠ []) : b.config? = none := if_neg h

theorem config?_eq {b : Builder} (h : b.diagnostics = []) :
    b.config? = (levels? (fun l => b.pending.count l) b.top b.frames).map
      fun (l, ls) => ⟨l, ls, b.pending.wait⟩ := if_pos h

/-- A chunk counts in the innermost block. -/
theorem levels?_push (b : Builder) (c : Chunk) :
    levels? some (b.push c).top (b.push c).frames = levels? (·.next c) b.top b.frames := by
  unfold push
  split
  next h => simp [levels?, h, Level.run_concat]
  next f fs h => simp [levels?, h, Level.run_concat, Option.bind_assoc]

/-- What counts in the innermost block counts behind its chunks. -/
theorem levels?_eq_bind (count : Level → Option Level) (top : List Chunk) (fs : List Frame) :
    levels? count top fs =
      (levels? some top fs).bind fun found => (count found.1).map (·, found.2) := by
  cases fs with
  | nil => cases hrun : Level.outside.run top <;> simp [levels?, hrun]
  | cons f fs =>
    simp only [levels?]
    cases (Level.inside f.kind).run f.children with
    | none => rfl
    | some l => cases levels? Level.value top fs <;> cases hcount : count l <;> simp [hcount]

theorem levels?_none (top : List Chunk) (fs : List Frame) :
    levels? (fun _ => none) top fs = none := by
  rw [levels?_eq_bind]
  cases levels? some top fs <;> rfl

/-- The config of a builder with one more chunk. -/
theorem config?_push {b : Builder} (hdiagnostics : b.diagnostics = [])
    (hpending : b.pending = .none) (c : Chunk) (weak : Bool) :
    config? { b.push c with weakAllowed := weak } =
      (levels? (·.next c) b.top b.frames).map fun (l, ls) => ⟨l, ls, .nothing⟩ := by
  have hcount : (fun l => Pending.count l .none) = some := rfl
  rw [config?_eq (by simpa using hdiagnostics)]
  simp only [pending_push, hpending, hcount, levels?_push, Pending.wait]

/-- The config of a builder whose pending chunk is complete. -/
theorem config?_complete {b : Builder} (hdiagnostics : b.diagnostics = []) {c : Chunk}
    (hcount : ∀ l : Level, l.next c = b.pending.count l) (weak : Bool) :
    (b.complete c weak).config? = b.config?.map fun c => { c with wait := .nothing } := by
  have hpush := config?_push (b := { b with pending := .none }) hdiagnostics rfl c weak
  have heq : b.complete c weak =
      { push { b with pending := .none } c with weakAllowed := weak } := by
    unfold complete push
    dsimp only
    split <;> rfl
  rw [heq, hpush, config?_eq hdiagnostics, Option.map_map]
  simp only [hcount]
  rfl

theorem innermost_push (b : Builder) (c : Chunk) : (b.push c).innermost = b.innermost ++ [c] := by
  unfold push
  split
  next h => simp [innermost, h]
  next f fs h => simp [innermost, h]

/-- With one more chunk, a newline is a separator if the chunk says so. -/
theorem ready_push {b b' : Builder} {c : Chunk} (hinnermost : b'.innermost = (b.push c).innermost)
    (hweak : b'.weakAllowed = endsItem c) : b'.Ready := by
  intro _ _
  simp [hinnermost, innermost_push, hweak]

theorem ready_complete (b : Builder) {c : Chunk} {weak : Bool} (hweak : weak = endsItem c) :
    (b.complete c weak).Ready :=
  ready_push (b := b) rfl hweak

theorem ready_of_diagnostics {b : Builder} (h : b.diagnostics ≠ []) : b.Ready :=
  fun hnil => absurd hnil h

/-- A chunk leaves its block of its kind. Behind a value or a comma an item ends, and otherwise
there is none or it has no value. -/
theorem phase_of_next {l m : Level} {c : Chunk} (h : l.next c = some m) :
    m.kind = l.kind ∧
      (l.kind.isSome = true → (endsItem c = true ↔ m.phase = .item ∨ m.phase = .comma)) := by
  cases c with
  | key name nameRange r t =>
    simp only [Level.next, Level.key, Option.ite_none_right_eq_some, Option.some.injEq] at h
    simp [← h.2, endsItem]
  | separator weak r t =>
    cases weak with
    | true =>
      simp only [Level.next, Level.separate, if_true, Option.ite_none_left_eq_some,
        Option.some.injEq] at h
      rw [← h.2, Level.newline]
      split <;> simp_all [endsItem]
    | false =>
      simp only [Level.next, Level.separate, Bool.false_eq_true, if_false, Level.comma,
        Option.ite_none_right_eq_some, Option.some.injEq] at h
      simp [← h.2, endsItem]
  | _ =>
    simp only [Level.next, Option.ite_none_right_eq_some, Level.value, Option.some.injEq] at h
    simp [← h.2.2, endsItem]

/-- A block stays of its kind. -/
theorem kind_of_run {l l' : Level} {cs : List Chunk} (h : l.run cs = some l') :
    l'.kind = l.kind := by
  induction cs generalizing l with
  | nil => rw [Option.some.inj h]
  | cons c cs ih =>
    rw [Level.run_cons] at h
    obtain ⟨m, hm, hrest⟩ := Option.bind_eq_some_iff.1 h
    rw [ih hrest, (phase_of_next hm).1]

/-- The phase of a block tells whether its last chunk ends an item. -/
theorem phase_of_run {kind : BlockKind} {cs : List Chunk} {l : Level}
    (h : (Level.inside kind).run cs = some l) :
    cs.getLast?.any endsItem = true ↔ l.phase = .item ∨ l.phase = .comma := by
  rcases eq_nil_or_concat cs with rfl | ⟨cs, c, rfl⟩
  · obtain rfl := Option.some.inj h
    simp [Level.inside]
  · rw [concat_eq_append, Level.run_concat] at h
    obtain ⟨m, hm, hnext⟩ := Option.bind_eq_some_iff.1 h
    rw [concat_eq_append, getLast?_concat, Option.any_some]
    exact (phase_of_next hnext).2 (by rw [kind_of_run hm]; rfl)

/-! ### Reading a token -/

section Read

variable {b : Builder} {t : Token}

/-- A block that ends at its bracket is a value of the block around it if it is complete. -/
theorem next_chunk (f : Frame) (t : Token) (index : Nat) (l : Level) :
    l.next (f.chunk t index) =
      if ((Level.inside f.kind).run f.children).any Level.isComplete then l.value else none := by
  have hdata : ∃ data, (f.chunk t index).data? =
      some (data, (Sequence.contents f.kind (items f.children)).2) := by
    unfold Frame.chunk
    dsimp only
    split
    · exact ⟨_, rfl⟩
    · exact ⟨_, rfl⟩
  obtain ⟨data, hdata⟩ := hdata
  rw [Level.next_of_data? hdata]
  by_cases hrun : ((Level.inside f.kind).run f.children).any Level.isComplete = true
  · rw [if_pos hrun, if_pos]
    obtain ⟨last, hlast, hcomplete⟩ : ∃ last, (Level.inside f.kind).run f.children = some last ∧
        last.isComplete = true := by
      cases hlast : (Level.inside f.kind).run f.children with
      | none => simp [hlast] at hrun
      | some last => exact ⟨last, rfl, by simpa [hlast] using hrun⟩
    rw [(Sequence.contents_of_run hlast hcomplete).1]
    exact Sequence.all_findings_of_run hlast
  · rw [if_neg hrun, if_neg]
    have herror : ∃ d ∈ (Sequence.contents f.kind (items f.children)).2, d.isError = true := by
      refine Sequence.exists_error_contents fun last hlast => ?_
      rw [hlast] at hrun
      simpa using hrun
    simpa using herror

/-- A block that ends is a value of what is around it, if it is complete. -/
theorem levels?_chunk (f : Frame) (t : Token) (index : Nat) (top : List Chunk) (fs : List Frame) :
    levels? (·.next (f.chunk t index)) top fs =
      ((Level.inside f.kind).run f.children).bind fun l =>
        if l.isComplete then levels? Level.value top fs else none := by
  simp only [next_chunk]
  cases hrun : (Level.inside f.kind).run f.children with
  | none => simpa using levels?_none top fs
  | some l =>
    cases hcomplete : l.isComplete with
    | true => simp [hcomplete]
    | false => simpa [hcomplete] using levels?_none top fs

/-- Reading a closing bracket. -/
theorem config?_close (hdiagnostics : b.diagnostics = []) (hpending : b.pending = .none)
    (kind : BlockKind) :
    (b.close t kind).config? = b.config?.bind (·.leave kind) := by
  rw [config?_eq hdiagnostics]
  cases hframes : b.frames with
  | nil =>
    rw [config?_eq_none]
    · cases hrun : Level.outside.run b.top <;>
        simp [levels?, hrun, hpending, Pending.count, Config.leave]
    · simp [close, hframes, diagnostics_invalid]
  | cons f fs =>
    by_cases hkind : f.kind = kind
    · subst hkind
      have hpush := config?_push (b := { b with frames := fs }) hdiagnostics hpending
        (f.chunk t b.index) true
      rw [b.close_of_frames t hframes, hpush, levels?_chunk]
      simp only [levels?, hpending, Pending.count, Option.bind_some]
      cases hrun : (Level.inside f.kind).run f.children with
      | none => rfl
      | some l =>
        have hl : l.kind = some f.kind := kind_of_run hrun
        cases levels? Level.value b.top fs with
        | none => simp
        | some found =>
          cases hcomplete : l.isComplete <;>
            simp [Config.leave, hl, hcomplete, Pending.wait]
    · rw [config?_eq_none]
      · simp only [levels?, hpending, Pending.count, Option.bind_some]
        cases hrun : (Level.inside f.kind).run f.children with
        | none => rfl
        | some l =>
          have hl : l.kind ≠ some kind := by
            rw [kind_of_run hrun]
            simpa [Level.inside] using hkind
          cases levels? Level.value b.top fs <;> simp [Config.leave, hl]
      · simp [close, hframes, hkind, report]

theorem phase_of_levels? {l : Level} {ls : List Level}
    (h : levels? some b.top b.frames = some (l, ls)) :
    l.kind.isSome = true →
      (b.innermost.getLast?.any endsItem = true ↔ l.phase = .item ∨ l.phase = .comma) := by
  unfold innermost
  cases hframes : b.frames with
  | nil =>
    simp only [hframes, levels?, Option.bind_fun_some, Option.map_eq_some_iff] at h
    obtain ⟨m, hrun, hm⟩ := h
    obtain ⟨rfl, -⟩ := Prod.mk.inj hm
    simp [kind_of_run hrun, Level.outside]
  | cons f fs =>
    simp only [hframes, levels?, Option.bind_some, Option.bind_eq_some_iff,
      Option.map_eq_some_iff] at h
    obtain ⟨m, hrun, found, -, hm⟩ := h
    obtain ⟨rfl, -⟩ := Prod.mk.inj hm
    exact fun _ => phase_of_run hrun

/-- Reading a newline. -/
theorem config?_newline (hready : b.Ready) (hdiagnostics : b.diagnostics = [])
    (hpending : b.pending = .none) (ht : t.kind = .newline) :
    (b.read t).config? =
      b.config?.map fun c => { c with level := c.level.newline, wait := .nothing } := by
  have hweak := hready hdiagnostics hpending
  -- what the builder does not take for a separator would have changed nothing
  have hkept : levels? (if b.weakAllowed then (·.separate true) else some) b.top b.frames =
      (levels? some b.top b.frames).map fun (l, ls) => (l.newline, ls) := by
    rw [levels?_eq_bind]
    cases hlevels : levels? some b.top b.frames with
    | none => rfl
    | some found =>
      obtain ⟨l, ls⟩ := found
      have hphase := phase_of_levels? hlevels
      rw [← hweak] at hphase
      generalize b.weakAllowed = weak at hphase ⊢
      obtain ⟨kind, phase, keys⟩ := l
      cases kind <;> cases weak <;> cases phase <;> simp_all [Level.separate, Level.newline]
  have hcount : (fun l => Pending.count l .none) = some := rfl
  rw [config?_eq hdiagnostics, hpending, hcount, Option.map_map]
  cases hallowed : b.weakAllowed with
  | true =>
    have hread : b.read t =
        { b.push (.separator true t.range (.single b.index)) with weakAllowed := false } := by
      simp [read, ht, hallowed]
    rw [hallowed, if_pos rfl] at hkept
    rw [hread, config?_push hdiagnostics hpending]
    simp only [Level.next]
    rw [hkept, Option.map_map]
    rfl
  | false =>
    have hread : b.read t = b := by simp [read, ht, hallowed]
    rw [hallowed, if_neg (by simp)] at hkept
    rw [hread, config?_eq hdiagnostics, hpending, hcount]
    nth_rewrite 1 [hkept]
    rw [Option.map_map]
    rfl

/-- A value that is read on the spot. -/
theorem next_value (l : Level) (v : Scalar) (r : Range) (n : TokenRange) :
    l.next (.value v r n) = l.value := by
  simp [Level.next, data?]

/-- A tag without a payload is a value. -/
theorem next_unit (l : Level) (tag : Tag) : l.next tag.unit = l.value := by
  simp [Level.next, Tag.unit, data?]

theorem config?_map_levels (hdiagnostics : b.diagnostics = []) (hpending : b.pending = .none)
    (count : Level → Option Level) (wait : Wait) :
    ((levels? count b.top b.frames).map fun (l, ls) => (⟨l, ls, wait⟩ : Config)) =
      b.config?.bind (·.put count wait) := by
  have hcount : (fun l => Pending.count l .none) = some := rfl
  rw [config?_eq hdiagnostics, hpending, hcount, levels?_eq_bind]
  cases levels? some b.top b.frames with
  | none => rfl
  | some found => cases h : count found.1 <;> simp [Config.put, h]

/-- Reading a token with nothing pending. -/
theorem config?_read (hready : b.Ready) (hdiagnostics : b.diagnostics = [])
    (hpending : b.pending = .none) (ht : t.kind ≠ .ignored) :
    (b.read t).config? = b.config?.bind (·.read t.mark) := by
  have hinvalid : (b.invalid t).config? = none :=
    config?_eq_none (by simp [diagnostics_invalid])
  have hpush : ∀ (c : Chunk) (weak : Bool) (count : Level → Option Level),
      (∀ l : Level, l.next c = count l) →
      config? { b.push c with weakAllowed := weak } = b.config?.bind (·.put count .nothing) := by
    intro c weak count hcount
    rw [config?_push hdiagnostics hpending]
    simp only [hcount]
    exact config?_map_levels hdiagnostics hpending count .nothing
  have hbegun : ∀ (p : Pending) (weak : Bool),
      config? { b with pending := p, weakAllowed := weak } =
        b.config?.bind (·.put (fun l => p.count l) p.wait) :=
    fun p weak =>
      (config?_eq (b := { b with pending := p, weakAllowed := weak }) hdiagnostics).trans
      (config?_map_levels hdiagnostics hpending _ p.wait)
  cases hk : t.kind with
  | ignored => exact absurd hk ht
  | newline =>
    rw [config?_newline hready hdiagnostics hpending hk]
    cases b.config? <;> simp [Config.read, mark, hk]
  | comma =>
    simp only [read, hk, Config.read, mark]
    exact hpush _ _ _ fun _ => rfl
  | literal l =>
    simp only [read, hk, Config.read, mark, foldl_report]
    by_cases hfits : l.fits t.text = true
    · rw [(l.read_snd_eq_nil_iff t).2 hfits, append_nil]
      simp only [hfits, if_true]
      exact hpush _ _ _ fun m => next_value m _ _ _
    · have hproblems : (l.read t).2 ≠ [] := fun h => hfits ((l.read_snd_eq_nil_iff t).1 h)
      rw [config?_eq_none (by simp [hproblems])]
      simp [hfits]
  | key =>
    simp only [read, hk, Config.read, mark]
    exact hbegun (.key t b.index) _
  | tag =>
    simp only [read, hk, Config.read, mark]
    exact hbegun (.tag _) _
  | quote side =>
    cases side with
    | opening =>
      simp only [read, hk, Config.read, mark]
      exact hbegun (.string _) _
    | closing => simp [read, hk, Config.read, mark, hinvalid]
  | bracket kind side =>
    cases side with
    | opening =>
      have hwait : ∀ c, b.config? = some c → c.wait = .nothing := by
        intro c hc
        rw [config?_eq hdiagnostics, hpending] at hc
        obtain ⟨found, -, rfl⟩ := Option.map_eq_some_iff.1 hc
        rfl
      have hput := config?_map_levels hdiagnostics hpending Level.value .nothing
      -- the new frame has no chunks yet, so only the level outside of it has counted a value
      have hread : (b.read t).config? =
          ((levels? Level.value b.top b.frames).map fun (l, ls) => (⟨l, ls, .nothing⟩ : Config)).map
            (·.enter kind) := by
        rw [config?_eq (by simpa [read, hk] using hdiagnostics)]
        simp only [read, hk, levels?, Level.run_nil, Pending.count, Option.bind_some,
          Option.map_map]
        rfl
      rw [hread, hput]
      cases hc : b.config? with
      | none => rfl
      | some c => simp [Config.read, mark, hk, hwait c hc]
    | closing =>
      simp only [read, hk, Config.read, mark]
      exact config?_close hdiagnostics hpending kind
  | colon | stringText escape | invalid unknown =>
    simp [read, hk, Config.read, mark, hinvalid]

/-- Behind what is read, a newline separates items if it should. -/
theorem ready_read (hready : b.Ready) : (b.read t).Ready := by
  have hinvalid : (b.invalid t).Ready := ready_of_diagnostics (by simp [diagnostics_invalid])
  have hpushed : ∀ (c : Chunk) (weak : Bool) (ds : List Diagnostic), weak = endsItem c →
      Ready { push { b with diagnostics := ds } c with weakAllowed := weak } :=
    fun c weak ds hweak => ready_push (b := { b with diagnostics := ds }) rfl hweak
  cases hk : t.kind with
  | ignored => simpa [read, hk] using hready
  | newline =>
    cases hallowed : b.weakAllowed with
    | true =>
      simp only [read, hk, hallowed, if_true]
      exact hpushed _ _ b.diagnostics rfl
    | false => simpa [read, hk, hallowed] using hready
  | comma =>
    simp only [read, hk]
    exact hpushed _ _ b.diagnostics rfl
  | literal l =>
    simp only [read, hk, foldl_report]
    exact hpushed _ _ _ rfl
  | key | tag => intro _ hp; simp [read, hk] at hp
  | quote side =>
    cases side with
    | opening => intro _ hp; simp [read, hk] at hp
    | closing => simpa [read, hk] using hinvalid
  | bracket kind side =>
    cases side with
    | opening => intro _ _; simp [read, hk, innermost]
    | closing =>
      simp only [read, hk]
      cases hframes : b.frames with
      | nil => simpa [close, hframes] using hinvalid
      | cons f fs =>
        by_cases hkind : f.kind = kind
        · subst hkind
          have hends : endsItem (f.chunk t b.index) = true := by
            cases htag : f.tag <;> simp [Frame.chunk, htag, endsItem]
          rw [b.close_of_frames t hframes]
          exact ready_push (b := { b with frames := fs }) rfl hends.symm
        · exact ready_of_diagnostics (by simp [close, hframes, hkind, report])
  | colon | stringText escape | invalid unknown => simpa [read, hk] using hinvalid

/-! ### Steps -/

theorem wait_of_config? {c : Config} (h : b.config? = some c) : c.wait = b.pending.wait := by
  unfold config? at h
  split at h
  · obtain ⟨found, -, rfl⟩ := Option.map_eq_some_iff.1 h
    rfl
  · cases h

/-- A pending chunk is complete, and the token is read behind it. -/
theorem config?_read_complete (hdiagnostics : b.diagnostics = []) {c : Chunk}
    (hcount : ∀ l : Level, l.next c = b.pending.count l) (weak : Bool) (hweak : weak = endsItem c)
    (ht : t.kind ≠ .ignored) :
    ((b.complete c weak).read t).config? =
        b.config?.bind (fun c => { c with wait := .nothing }.read t.mark) ∧
      ((b.complete c weak).read t).Ready := by
  have hready := ready_complete b hweak
  have hnone : (b.complete c weak).pending = .none := rfl
  refine ⟨?_, ready_read hready⟩
  rw [config?_read hready (by simpa using hdiagnostics) hnone ht,
    config?_complete hdiagnostics hcount]
  cases b.config? <;> rfl

/-- Whether a tag waits for its payload matters to an opening bracket alone. -/
theorem read_of_keepsTag_eq_false (h : keepsTag t = false) (c : Config) (wait : Wait) :
    { c with wait := wait }.read t.mark = c.read t.mark := by
  cases hk : t.kind with
  | bracket kind side =>
    cases side with
    | opening => simp [keepsTag, hk] at h
    | closing => simp [Config.read, mark, hk, Config.leave]
  | quote side => cases side <;> simp [Config.read, mark, hk, Config.put]
  | _ => simp [Config.read, mark, hk, Config.put]

/-- A string that goes on leaves the config as it is. -/
theorem config?_text {s s' : OpenString} (hpending : b.pending = .string s)
    (hdiagnostics : b.diagnostics = []) : config? { b with pending := .string s' } = b.config? := by
  rw [config?_eq (b := { b with pending := .string s' }) hdiagnostics, config?_eq hdiagnostics,
    hpending]
  rfl

/-- What a token adds to a string, its mark may add as well. -/
theorem readInString_of_stringPart? {text : String} (h : stringPart? t = some text) (c : Config) :
    c.readInString t.mark = some c := by
  unfold stringPart? at h
  split at h
  next ht => simp [Config.readInString, mark, ht]
  next ht =>
    obtain ⟨a, ha, -⟩ := Option.map_eq_some_iff.1 h
    simp [Config.readInString, mark, ht, ha]
  next ht => simp [Config.readInString, mark, ht]
  next => cases h

theorem readInString_eq_none (hpart : stringPart? t = none) (hquote : t.kind ≠ .quote .closing)
    (c : Config) : c.readInString t.mark = none := by
  unfold stringPart? at hpart
  split at hpart <;> simp_all [Config.readInString, mark]

theorem diagnostics_readNext_ne_nil (h : b.diagnostics ≠ []) : (b.readNext t).diagnostics ≠ [] := by
  obtain ⟨ds, hds, -⟩ := exists_diagnostics_step b t
  rw [← diagnostics_step_eq, hds]
  simp [h]

/-- **Reading a token.** The config of a builder that has read one more token is the config of the
builder behind the token. -/
theorem config?_step (hready : b.Ready) (hstring : b.InString → t.kind ≠ .ignored) :
    (b.step t).config? = b.config?.bind (·.step t.mark) ∧ (b.step t).Ready := by
  change (b.readNext t).config? = b.config?.bind (·.step t.mark) ∧ (b.readNext t).Ready
  by_cases hdiagnostics : b.diagnostics = []
  · have hstep : ∀ {f : Config → Option Config},
        (∀ c : Config, c.wait = b.pending.wait → c.step t.mark = f c) →
        b.config?.bind (·.step t.mark) = b.config?.bind f :=
      fun hf => Option.bind_congr fun c hc => hf c (wait_of_config? hc)
    -- where something is found, neither side goes on
    have hbad : ∀ {b' : Builder}, b'.diagnostics ≠ [] →
        (∀ c : Config, c.wait = b.pending.wait → c.step t.mark = none) →
        b'.config? = b.config?.bind (·.step t.mark) ∧ b'.Ready := fun hbad hnone =>
      ⟨by rw [config?_eq_none hbad, hstep hnone, Option.bind_fun_none], ready_of_diagnostics hbad⟩
    have hinside : ∀ {s}, b.pending = .string s → ∀ c : Config, c.wait = b.pending.wait →
        c.step t.mark = c.readInString t.mark := by
      intro s hpending c hc
      simp [Config.step, mark, hstring ⟨s, hpending⟩, hc, hpending, Pending.wait]
    have houtcome := outcome_readNext b t
    generalize b.readNext t = b' at houtcome ⊢
    cases houtcome with
    | skip _ ht => exact ⟨by cases b.config? <;> simp [Config.step, mark, ht], hready⟩
    | read hpending ht =>
      refine ⟨?_, ready_read hready⟩
      rw [config?_read hready hdiagnostics hpending ht, hstep fun c hc => ?_]
      simp [Config.step, mark, ht, hc, hpending, Pending.wait]
    | invalid hpending ht =>
      refine hbad (by simp [diagnostics_invalid]) fun c hc => ?_
      simp [Config.step, Config.read, mark, ht, hc, hpending, Pending.wait]
    | @payload tag hpending kind ht =>
      refine ⟨?_, fun _ _ => by simp [innermost]⟩
      rw [config?_eq hdiagnostics, config?_eq (by exact hdiagnostics), hpending]
      simp only [levels?, Level.run_nil, Pending.count, Option.bind_some, Option.map_map]
      cases levels? Level.value b.top b.frames with
      | none => rfl
      | some found => simp [Config.step, Config.read, mark, ht, Pending.wait, Config.enter]
    | unit hpending hkeeps =>
      have ht : t.kind ≠ .ignored := by
        intro ht
        simp [keepsTag, ht] at hkeeps
      obtain ⟨hconfig, hready⟩ := config?_read_complete hdiagnostics
        (fun l => by rw [next_unit, hpending]; rfl) true rfl ht
      refine ⟨hconfig.trans (hstep fun c hc => ?_).symm, hready⟩
      rw [read_of_keepsTag_eq_false hkeeps]
      simp [Config.step, mark, ht, hc, hpending, Pending.wait]
    | colon hpending ht =>
      refine ⟨?_, ready_complete b rfl⟩
      refine (config?_complete hdiagnostics (fun l => by rw [hpending]; rfl) false).trans ?_
      rw [Option.map_eq_bind]
      refine (hstep fun c hc => ?_).symm
      simp [Config.step, mark, ht, hc, hpending, Pending.wait]
    | bareKey hpending hignored hcolon =>
      obtain ⟨hconfig, hready⟩ := config?_read_complete hdiagnostics
        (c := bareKey _ _) (fun l => by rw [hpending]; rfl) false rfl hignored
      refine ⟨hconfig.trans (hstep fun c hc => ?_).symm, hready⟩
      simp [Config.step, mark, hignored, hcolon, hc, hpending, Pending.wait]
    | text hpending hpart =>
      refine ⟨?_, fun _ hnone => by simp at hnone⟩
      rw [config?_text hpending hdiagnostics, hstep (f := some) fun c hc => ?_,
        Option.bind_fun_some]
      rw [hinside hpending c hc, readInString_of_stringPart? hpart]
    | badText hpending hkeeps hpart =>
      refine hbad (by simp [diagnostics_invalid]) fun c hc => ?_
      rw [hinside hpending c hc, readInString_eq_none hpart]
      rintro hquote
      simp [keepsString, hquote] at hkeeps
    | closingQuote hpending ht =>
      refine ⟨?_, ready_complete b rfl⟩
      rw [config?_complete hdiagnostics
        (fun l => by rw [OpenString.chunk, next_value, hpending]; rfl), Option.map_eq_bind]
      refine (hstep fun c hc => ?_).symm
      rw [hinside hpending c hc]
      simp [Config.readInString, mark, ht]
    | cut hpending hkeeps hquote =>
      refine hbad (by simp [diagnostics_read, report]) fun c hc => ?_
      rw [hinside hpending c hc, readInString_eq_none (stringPart?_eq_none hkeeps) hquote]
  · have hbad : (b.readNext t).diagnostics ≠ [] := diagnostics_readNext_ne_nil hdiagnostics
    refine ⟨?_, ready_of_diagnostics hbad⟩
    rw [config?_eq_none hbad, config?_eq_none hdiagnostics]
    rfl

end Read

end Builder

end Chunk

/-! ### Runs -/

/-- The config of a builder that walks through the tokens of a text. -/
theorem Walk.config?_run {s last : Scanner} {vs : List Visit} (h : Walk s vs last) {b : Builder}
    (hb : InStep s b) (hready : b.Ready) :
    (b.run (vs.map (·.token))).config? = b.config?.bind (·.run (vs.map (·.token.mark))) := by
  induction h generalizing b with
  | nil =>
    rw [map_nil, run_nil]
    cases b.config? <;> rfl
  | @cons s next last t vs hmoves _ ih =>
    obtain ⟨hconfig, hnext⟩ := config?_step hready (hb.kind_ne_ignored hmoves)
    have hrest := ih (hb.step hmoves) hnext
    rw [hconfig] at hrest
    rw [map_cons, run_cons, hrest]
    cases b.config? <;> rfl

namespace Document

/-- The marks of a text. -/
def marksOf (text : String) : List Mark :=
  (tokensOf text).map mark

theorem map_mark_visits (text : String) : (visits text).map (·.token.mark) = marksOf text := by
  rw [marksOf, ← map_token_visits, map_map]
  rfl

/-- The builder behind the tokens of a text. -/
def builderOf (text : String) : Builder :=
  run {} (tokensOf text)

theorem config?_builderOf (text : String) :
    (builderOf text).config? = Config.run {} (marksOf text) := by
  have hready : Ready {} := fun _ _ => rfl
  have hrun := (walk_visits text).config?_run .start hready
  rw [map_token_visits, map_mark_visits] at hrun
  exact hrun

end Document

/-! ### The document around all blocks -/

namespace Chunk

/-- Whether an error is found in a chunk. -/
def isClean (c : Chunk) : Bool :=
  c.data?.all fun found => found.2.all fun d => !d.isError

theorem next_of_isValue {c : Chunk} (h : c.isValue = true) (l : Level) :
    l.next c = if c.isClean then l.value else none := by
  cases c <;> first | rfl | simp [isValue] at h

/-- Outside of all blocks a key or a separator changes nothing if it is legal there. -/
theorem next_of_kind_eq_none {l m : Level} {c : Chunk} (hl : l.kind = none)
    (hc : c.isValue = false) : l.next c = some m ↔ c.illegalTopLevel = [] ∧ l = m := by
  cases c with
  | separator weak r t =>
    cases weak <;> simp [Level.next, Level.separate, Level.newline, Level.comma, illegalTopLevel,
      hl]
  | key => simp [Level.next, Level.key, Level.takesKey, illegalTopLevel, hl]
  | _ => simp [isValue] at hc

/-- Outside of all blocks there is at most one value, and nothing but newlines around it. -/
theorem run_outside_eq_some_iff (cs : List Chunk) (l : Level) :
    Level.outside.run cs = some l ↔
      cs.flatMap illegalTopLevel = [] ∧
        ((l = .outside ∧ cs.filter isValue = []) ∨
          (l = { Level.outside with phase := .item } ∧
            ∃ c, cs.filter isValue = [c] ∧ c.isClean = true)) := by
  induction cs using List.reverseRecOn generalizing l with
  | nil => simp [eq_comm (b := l)]
  | append_singleton cs c ih =>
    rw [Level.run_concat, flatMap_append, append_eq_nil_iff, filter_append]
    by_cases hvalue : c.isValue = true
    · have hlegal : [c].flatMap illegalTopLevel = [] := by
        cases c <;> simp_all [isValue, illegalTopLevel]
      have hfilter : [c].filter isValue = [c] := by simp [hvalue]
      simp only [next_of_isValue hvalue, hlegal, hfilter, and_true, Option.bind_eq_some_iff, ih]
      constructor
      · rintro ⟨m, ⟨hillegal, ⟨rfl, hnone⟩ | ⟨rfl, -⟩⟩, hm⟩
        · have hclean : c.isClean = true := by
            by_contra hnot
            simp [hnot] at hm
          rw [if_pos hclean] at hm
          refine ⟨hillegal, .inr ⟨(Option.some.inj hm).symm, c, by simp [hnone], hclean⟩⟩
        · cases hclean : c.isClean <;>
            simp [hclean, Level.value, Level.takesValue, Level.outside] at hm
      · rintro ⟨hillegal, ⟨-, habsurd⟩ | ⟨rfl, d, hd, hclean⟩⟩
        · simp at habsurd
        · obtain ⟨hnone, hc⟩ := append_eq_singleton_iff.1 hd |>.resolve_right (by simp)
          obtain rfl := singleton_inj.1 hc
          exact ⟨.outside, ⟨hillegal, .inl ⟨rfl, hnone⟩⟩, by rw [if_pos hclean]; rfl⟩
    · have hfilter : [c].filter isValue = [] := by simp [hvalue]
      simp only [hfilter, append_nil, Option.bind_eq_some_iff, ih]
      constructor
      · rintro ⟨m, ⟨hillegal, hm⟩, hml⟩
        have hkind : m.kind = none := by rcases hm with ⟨rfl, -⟩ | ⟨rfl, -⟩ <;> rfl
        obtain ⟨hlegal, rfl⟩ := (next_of_kind_eq_none hkind (by simpa using hvalue)).1 hml
        exact ⟨⟨hillegal, by simpa using hlegal⟩, hm⟩
      · rintro ⟨⟨hillegal, hlegal⟩, hl⟩
        have hkind : l.kind = none := by rcases hl with ⟨rfl, -⟩ | ⟨rfl, -⟩ <;> rfl
        exact ⟨l, ⟨hillegal, hl⟩,
          (next_of_kind_eq_none hkind (by simpa using hvalue)).2 ⟨by simpa using hlegal, rfl⟩⟩

end Chunk

namespace Document

/-- What is known of a document that is accepted: its only value is without errors, and what is
found in the document is found in that value. -/
structure Accepted (text : String) (c : Chunk) (data : Data) : Prop where
  diagnostics : (builderOf text).diagnostics = []
  chunks : (parse text).chunks = (builderOf text).settle.top
  frames : (builderOf text).frames = []
  string : ¬(builderOf text).InString
  run : Level.outside.run (parse text).chunks = some { Level.outside with phase := .item }
  values : (parse text).chunks.filter isValue = [c]
  data?_eq : c.data? = some (data, (parse text).report.diagnostics)
  data_eq : (parse text).data = some data
  clean : ∀ d ∈ (parse text).report.diagnostics, d.isError = false

end Document

/-- Outside of all blocks, what is pending counts as it does when it is complete. -/
theorem Chunk.Builder.config?_eq_of_frames {b : Builder} (hframes : b.frames = [])
    (hstring : ¬b.InString) (hdiagnostics : b.diagnostics = []) :
    b.config? = (Level.outside.run b.settle.top).map fun l => ⟨l, [], b.pending.wait⟩ := by
  rw [config?_eq hdiagnostics, hframes]
  simp only [levels?, Option.map_map]
  cases hpending : b.pending with
  | none =>
    have hsettle : b.settle = b := by simp [settle, hpending]
    rw [hsettle]
    cases Level.outside.run b.top <;> rfl
  | tag tag =>
    have htop : b.settle.top = b.top ++ [tag.unit] := by
      simp [settle, hpending, complete, push, hframes]
    rw [htop, Level.run_concat]
    simp only [next_unit]
    rfl
  | key key i =>
    have htop : b.settle.top = b.top ++ [bareKey key i] := by
      simp [settle, hpending, complete, push, hframes]
    rw [htop, Level.run_concat]
    rfl
  | string s => exact absurd ⟨s, hpending⟩ hstring

namespace Document

variable {text : String}

theorem parse_eq (text : String) :
    (parse text).chunks = (builderOf text).finish.top ∧
      ((parse text).data, (parse text).report) =
        ofChunks (builderOf text).finish.top ⟨(builderOf text).finish.diagnostics⟩ := by
  rw [parse]
  exact ⟨rfl, rfl⟩

/-- A text whose marks are accepted has data, and no error is found in it. -/
theorem exists_accepted (h : Config.accepts (marksOf text) = true) :
    ∃ c data, Accepted text c data := by
  set b := builderOf text with hb
  obtain ⟨config, hconfig, hfinal⟩ : ∃ c, b.config? = some c ∧ c.isFinal = true := by
    rw [hb, config?_builderOf]
    cases hrun : Config.run {} (marksOf text) with
    | none => simp [Config.accepts, hrun] at h
    | some c => exact ⟨c, rfl, by simpa [Config.accepts, hrun] using h⟩
  simp only [Config.isFinal, Bool.and_eq_true, beq_iff_eq, bne_iff_ne, List.isEmpty_iff] at hfinal
  obtain ⟨⟨houter, hphase⟩, hwait⟩ := hfinal
  have hdiagnostics : b.diagnostics = [] := by
    by_contra hbad
    rw [config?_eq_none hbad] at hconfig
    cases hconfig
  -- an open block would be a level around the innermost one
  have hframes : b.frames = [] := by
    cases hframes : b.frames with
    | nil => rfl
    | cons f fs =>
      rw [config?_eq hdiagnostics, hframes] at hconfig
      simp only [levels?, Option.map_eq_some_iff, Option.bind_eq_some_iff] at hconfig
      obtain ⟨-, ⟨l, -, m, -, found, -, rfl⟩, rfl⟩ := hconfig
      simp at houter
  have hstring : ¬b.InString := by
    rintro ⟨s, hs⟩
    rw [wait_of_config? hconfig, hs] at hwait
    exact hwait rfl
  rw [config?_eq_of_frames hframes hstring hdiagnostics] at hconfig
  obtain ⟨l, hrun, rfl⟩ := Option.map_eq_some_iff.1 hconfig
  obtain ⟨hillegal, hcases⟩ := (run_outside_eq_some_iff _ _).1 hrun
  obtain ⟨rfl, c, hvalues, hclean⟩ : l = { Level.outside with phase := .item } ∧
      ∃ c, b.settle.top.filter isValue = [c] ∧ c.isClean = true := by
    refine hcases.resolve_left ?_
    rintro ⟨rfl, -⟩
    simp [Level.outside] at hphase
  have hfinish : b.finish = b.settle := b.finish_eq_settle hframes
  have hfound : b.settle.diagnostics = [] := by
    obtain ⟨n, hn, hiff⟩ := exists_diagnostics_settle b
    have hzero : n = 0 := by
      by_contra hne
      exact hstring (hiff.1 hne)
    rw [hn, hdiagnostics, hzero]
    rfl
  obtain ⟨hchunks, hparse⟩ := parse_eq text
  rw [← hb, hfinish] at hchunks hparse
  rw [hfound] at hparse
  have hvalue : c.isValue = true := by
    have hmem : c ∈ b.settle.top.filter isValue := by simp [hvalues]
    exact (mem_filter.1 hmem).2
  obtain ⟨⟨data, problems⟩, hdata⟩ :=
    Option.isSome_iff_exists.1 (isSome_data?_of_isValue hvalue)
  have hof : ofChunks b.settle.top ⟨[]⟩ = (some data, ⟨problems⟩) := by
    simp [ofChunks, Report.merge, hillegal, Report.canContinue, hvalues, hdata]
  rw [hof, Prod.mk.injEq] at hparse
  obtain ⟨hparsed, hreport⟩ := hparse
  refine ⟨c, data, hdiagnostics, hchunks, hframes, hstring, by rw [hchunks]; exact hrun,
    by rw [hchunks]; exact hvalues, ?_, hparsed, ?_⟩
  · rw [hdata, hreport]
  · rw [hreport]
    simpa [isClean, hdata] using hclean

/-- A text that has data and no errors is accepted. -/
theorem accepts_of_data (hdata : (parse text).data.isSome = true)
    (herrors : ∀ d ∈ (parse text).report.diagnostics, d.isError = false) :
    Config.accepts (marksOf text) = true := by
  set b := builderOf text with hb
  obtain ⟨-, hparse⟩ := parse_eq text
  rw [← hb] at hparse
  have hreport : (parse text).report = (ofChunks b.finish.top ⟨b.finish.diagnostics⟩).2 :=
    congrArg Prod.snd hparse
  have hsome : (parse text).data = (ofChunks b.finish.top ⟨b.finish.diagnostics⟩).1 :=
    congrArg Prod.fst hparse
  rw [hreport] at herrors
  rw [hsome] at hdata
  obtain ⟨c, data, problems, hvalues, hc, hof⟩ : ∃ c data problems,
      b.finish.top.filter isValue = [c] ∧ c.data? = some (data, problems) ∧
        ofChunks b.finish.top ⟨b.finish.diagnostics⟩ = (some data,
          (topLevelReport b.finish.top ⟨b.finish.diagnostics⟩).merge ⟨problems⟩) := by
    rcases ofChunks_cases b.finish.top ⟨b.finish.diagnostics⟩ with
      ⟨-, hof⟩ | ⟨-, -, _, _, _, hof⟩ | ⟨-, hone⟩
    · simp [hof] at hdata
    · simp [hof] at hdata
    · exact hone
  rw [hof] at herrors
  -- all that is found while building or outside of all blocks is an error, so it is nothing
  have htop : (topLevelReport b.finish.top ⟨b.finish.diagnostics⟩).diagnostics = [] := by
    refine eq_nil_iff_forall_not_mem.2 fun d hd => ?_
    have herror : d.isError = true := isError_of_mem_topLevelReport
      (fun d hd => @isError_of_mem_ofTokens (tokensOf text) d hd) hd
    rw [herrors d (mem_append_left _ hd)] at herror
    cases herror
  obtain ⟨hfound, hillegal⟩ : b.finish.diagnostics = [] ∧
      b.finish.top.flatMap illegalTopLevel = [] := append_eq_nil_iff.1 htop
  have hclean : c.isClean = true := by
    simp only [isClean, hc, Option.all_some, all_eq_true]
    intro d hd
    simp [herrors d (mem_append_right _ hd)]
  obtain ⟨n, hn, hiff⟩ := exists_diagnostics_finish b last_ne_none
  rw [hfound] at hn
  obtain ⟨hdiagnostics, hnone⟩ := append_eq_nil_iff.1 hn.symm
  have hopen : ¬(b.InString ∨ b.frames ≠ []) := by
    intro hbad
    exact hiff.2 hbad (by simpa using hnone)
  rw [not_or, not_not] at hopen
  obtain ⟨hstring, hframes⟩ := hopen
  have hrun : Level.outside.run b.settle.top = some { Level.outside with phase := .item } := by
    rw [← b.finish_eq_settle hframes]
    exact (run_outside_eq_some_iff _ _).2 ⟨hillegal, .inr ⟨rfl, c, hvalues, hclean⟩⟩
  have hconfig := config?_eq_of_frames hframes hstring hdiagnostics
  rw [hrun, hb, config?_builderOf] at hconfig
  have hwait : b.pending.wait ≠ .quote := by
    intro hwait
    cases hpending : b.pending with
    | string s => exact hstring ⟨s, hpending⟩
    | _ => simp [hpending, Pending.wait] at hwait
  simpa [Config.accepts, hconfig, Config.isFinal] using hwait

end Document

end TypedNotation
