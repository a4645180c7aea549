import Mathlib.Tactic.Common
import TypedNotation.Chunk.Builder

/-!
# Steps of a builder

What one token does to a builder, said of three things apart:

* the *outline*, the open blocks with their opening brackets (`outline_step`);
* what is pending: a string runs from its opening to its closing quote (`inString_step`), a key
  waits for its colon across blanks (`awaitsColon_step_key`, `awaitsColon_step_ignored`);
* the findings, which are only ever added to (`diagnostics_step`, `mem_diagnostics_step`).

Outside of strings all three depend on the token and the outline alone. Inside of a string the
outline stays as it is (`step_keepsString`, `step_closing_quote`). When the tokens end, what is open
is reported (`exists_diagnostics_finish`).
-/

namespace TypedNotation

open List Chunk.Builder

/-- What is found in a literal is that it is out of range. -/
theorem Literal.exists_eq_of_mem_read {l : Literal} {t : Token} {d : Diagnostic}
    (h : d ∈ (l.read t).2) : ∃ message, d = .error .numberOutOfRange t.range message := by
  unfold read at h
  dsimp only at h
  split at h
  · simp at h
  · split at h
    · simp at h
    · exact ⟨_, mem_singleton.1 h⟩
  · split at h
    · simp at h
    · exact ⟨_, mem_singleton.1 h⟩

namespace Chunk

/-- The finding at a token that stands for nothing. -/
def invalidToken (t : Token) : Diagnostic :=
  .error .invalidToken t.range
    (if t.kind = .invalid true then "Unrecognised token" else "Invalid token")

/-- The open blocks, innermost first, each with its opening bracket. -/
abbrev Outline := List (BlockKind × Token)

namespace Outline

/-- The kinds and the brackets of open blocks. -/
def ofFrames (frames : List Frame) : Outline :=
  frames.map fun f => (f.kind, f.bracket)

/-- The open blocks after a token that stands outside of strings. -/
def after (outline : Outline) (t : Token) : Outline :=
  match t.kind with
  | .bracket kind .opening => (kind, t) :: outline
  | .bracket kind .closing =>
    match outline with
    | [] => []
    | (open', bracket) :: outer =>
      if open' = kind then outer else outer.drop (bracket.depth - t.depth)
  | _ => outline

/-- What is reported at a token that is outside of strings and no colon of a key. -/
def findings (outline : Outline) (t : Token) : List Diagnostic :=
  match t.kind with
  | .invalid _ | .colon | .quote .closing | .stringText _ => [invalidToken t]
  | .literal literal => (literal.read t).2
  | .bracket kind .closing =>
    match outline with
    | [] => [invalidToken t]
    | (open', bracket) :: _ => if open' = kind then [] else [mismatch bracket t]
  | _ => []

/-- What can be found at a token: that it stands for nothing, that it is a number out of range, or
that it is a bracket that does not match. -/
theorem mem_findings_cases {outline : Outline} {t : Token} {d : Diagnostic}
    (h : d ∈ outline.findings t) :
    d = invalidToken t ∨ (∃ message, d = .error .numberOutOfRange t.range message) ∨
      ∃ bracket ∈ outline.map (·.2), d = mismatch bracket t := by
  unfold findings at h
  split at h
  case h_5 => exact .inr (.inl (Literal.exists_eq_of_mem_read h))
  case h_6 =>
    split at h
    · exact .inl (mem_singleton.1 h)
    · split at h
      · simp at h
      · exact .inr (.inr ⟨_, mem_cons_self, mem_singleton.1 h⟩)
  case h_7 => simp at h
  all_goals exact .inl (mem_singleton.1 h)

end Outline

namespace Builder

/-- The open blocks of a builder, with their opening brackets. -/
def outline (b : Builder) : Outline :=
  .ofFrames b.frames

/-- A string has not been closed. -/
def InString (b : Builder) : Prop :=
  ∃ s, b.pending = .string s

/-- A key may still get its colon. -/
def AwaitsColon (b : Builder) : Prop :=
  ∃ key index, b.pending = .key key index

/-- A key that waits for its colon is not inside a string. -/
theorem AwaitsColon.not_inString {b : Builder} (h : b.AwaitsColon) : ¬b.InString := by
  rintro ⟨s, hs⟩
  obtain ⟨key, index, hk⟩ := h
  rw [hs] at hk
  cases hk

/-- Whether a string goes on behind a token. -/
def keepsString (t : Token) : Bool :=
  match t.kind with
  | .stringText _ | .newline | .invalid _ => true
  | _ => false

/-- What a token adds to the text of a string, if it may stand there. -/
def stringPart? (t : Token) : Option String :=
  match t.kind with
  | .stringText false => some t.text
  | .stringText true => (Escape.decode? t.text.toList).map String.singleton
  | .newline => some "\n"
  | _ => none

/-- A part of a string keeps it open. -/
theorem keepsString_of_stringPart? {t : Token} {text : String} (h : stringPart? t = some text) :
    keepsString t = true := by
  unfold stringPart? at h
  split at h <;> simp_all [keepsString]

theorem stringPart?_eq_none {t : Token} (h : keepsString t = false) : stringPart? t = none := by
  cases hpart : stringPart? t with
  | none => rfl
  | some text => simp [keepsString_of_stringPart? hpart] at h

/-- The finding where the tokens end. -/
def tooEarly (b : Builder) : Diagnostic :=
  .fatalError .unexpectedEndOfInput (.point b.endOfInput) "Unexpected end of input"

/-! ### Operations -/

section Operations

variable (b : Builder) (c : Chunk) (t : Token) (index : Nat)

/-- A chunk opens and closes no block. -/
@[simp] theorem ofFrames_push : Outline.ofFrames (b.push c).frames = .ofFrames b.frames := by
  unfold push
  split
  next h => rfl
  next h => simp [Outline.ofFrames, h]

@[simp] theorem pending_push : (b.push c).pending = b.pending := by
  unfold push
  split <;> rfl

@[simp] theorem diagnostics_push : (b.push c).diagnostics = b.diagnostics := by
  unfold push
  split <;> rfl

@[simp] theorem last_push : (b.push c).last = b.last := by
  unfold push
  split <;> rfl

@[simp] theorem index_push : (b.push c).index = b.index := by
  unfold push
  split <;> rfl

@[simp] theorem frames_invalid : (b.invalid t).frames = b.frames := rfl

@[simp] theorem pending_invalid : (b.invalid t).pending = b.pending := rfl

theorem diagnostics_invalid :
    (b.invalid t).diagnostics = b.diagnostics ++ [invalidToken t] := rfl

/-- Findings are reported in order. -/
theorem foldl_report (ds : List Diagnostic) :
    ds.foldl report b = { b with diagnostics := b.diagnostics ++ ds } := by
  induction ds generalizing b with
  | nil => simp
  | cons d ds ih => simp [ih, report]

/-- The innermost block is closed. -/
@[simp] theorem ofFrames_pop :
    Outline.ofFrames (b.pop t index).frames = (Outline.ofFrames b.frames).tail := by
  unfold pop
  split
  next h => simp [Outline.ofFrames, h]
  next f fs h =>
    rw [ofFrames_push, h]
    rfl

@[simp] theorem pending_pop : (b.pop t index).pending = b.pending := by
  unfold pop
  split <;> simp

@[simp] theorem diagnostics_pop : (b.pop t index).diagnostics = b.diagnostics := by
  unfold pop
  split <;> simp

/-- The innermost blocks are closed. -/
@[simp] theorem ofFrames_popMany (n : Nat) :
    Outline.ofFrames (b.popMany t index n).frames = (Outline.ofFrames b.frames).drop n := by
  induction n generalizing b with
  | zero => rfl
  | succ n ih => rw [popMany, ih, ofFrames_pop, drop_tail]

@[simp] theorem pending_popMany (n : Nat) : (b.popMany t index n).pending = b.pending := by
  induction n generalizing b with
  | zero => rfl
  | succ n ih => rw [popMany, ih, pending_pop]

@[simp] theorem diagnostics_popMany (n : Nat) :
    (b.popMany t index n).diagnostics = b.diagnostics := by
  induction n generalizing b with
  | zero => rfl
  | succ n ih => rw [popMany, ih, diagnostics_pop]

@[simp] theorem ofFrames_complete (weak : Bool) :
    Outline.ofFrames (b.complete c weak).frames = .ofFrames b.frames :=
  ofFrames_push b c

@[simp] theorem diagnostics_complete (weak : Bool) :
    (b.complete c weak).diagnostics = b.diagnostics :=
  diagnostics_push b c

@[simp] theorem index_complete (weak : Bool) : (b.complete c weak).index = b.index :=
  index_push b c

/-- A block that ends at its bracket is a chunk of what is around it. -/
theorem close_of_frames {f : Frame} {fs : List Frame} (hframes : b.frames = f :: fs) :
    b.close t f.kind =
      { push { b with frames := fs } (f.chunk t b.index) with weakAllowed := true } := by
  simp [close, hframes, pop]

@[simp] theorem pending_close (kind : BlockKind) : (b.close t kind).pending = b.pending := by
  unfold close
  split
  · rfl
  · dsimp only
    split <;> simp [report]

private theorem drop_min_length {α : Type} (l : List α) (n : Nat) :
    l.drop (min n l.length) = l.drop n := by
  rcases Nat.le_total n l.length with hle | hle
  · rw [Nat.min_eq_left hle]
  · rw [Nat.min_eq_right hle, drop_length, drop_eq_nil_of_le hle]

/-- A closing bracket closes its block and all that is deeper. -/
theorem outline_close {kind : BlockKind} (ht : t.kind = .bracket kind .closing) :
    (b.close t kind).outline = b.outline.after t := by
  unfold close
  split
  next h => simp [outline, Outline.after, Outline.ofFrames, h, ht]
  next f fs h =>
    have houtline : b.outline = (f.kind, f.bracket) :: Outline.ofFrames fs := by
      rw [outline, h]
      rfl
    rw [houtline]
    by_cases hk : f.kind = kind
    · have hpop : Outline.ofFrames (b.pop t b.index).frames = Outline.ofFrames fs := by
        rw [ofFrames_pop, h]
        rfl
      simp [outline, Outline.after, ht, hk, hpop, -ofFrames_pop]
    · have hdrop : b.outline.drop (min (spanned f.bracket t) b.depth) =
          (Outline.ofFrames fs).drop (f.bracket.depth - t.depth) := by
        have hdepth : b.depth = (Outline.ofFrames fs).length + 1 := by
          simp [depth, h, Outline.ofFrames]
        rw [houtline, hdepth, spanned, Nat.add_comm 1, Nat.add_min_add_right, drop_succ_cons,
          drop_min_length]
      simpa [outline, Outline.after, ht, hk, report] using hdrop

/-- What a closing bracket reports, from the outline alone. -/
theorem diagnostics_close {kind : BlockKind} (ht : t.kind = .bracket kind .closing) :
    (b.close t kind).diagnostics = b.diagnostics ++ b.outline.findings t := by
  unfold close
  split
  next h => simp [outline, Outline.findings, Outline.ofFrames, h, ht, diagnostics_invalid]
  next f fs h =>
    by_cases hk : f.kind = kind <;>
      simp [outline, Outline.findings, Outline.ofFrames, h, ht, hk, report]

end Operations

/-! ### Reading -/

section Read

variable (b : Builder) (t : Token)

/-- Outside strings the outline follows the tokens. -/
theorem outline_read : (b.read t).outline = b.outline.after t := by
  cases h : t.kind with
  | bracket kind side =>
    cases side with
    | opening => simp [outline, read, h, Outline.after, Outline.ofFrames]
    | closing => simpa [read, h] using outline_close b t h
  | newline => cases hw : b.weakAllowed <;> simp [outline, read, h, hw, Outline.after]
  | literal l => simp [outline, read, h, Outline.after, foldl_report]
  | quote side => cases side <;> simp [outline, read, h, Outline.after]
  | _ => simp [outline, read, h, Outline.after]

/-- Outside strings the findings follow from the outline. -/
theorem diagnostics_read : (b.read t).diagnostics = b.diagnostics ++ b.outline.findings t := by
  cases h : t.kind with
  | bracket kind side =>
    cases side with
    | opening => simp [read, h, Outline.findings]
    | closing => simpa [read, h] using diagnostics_close b t h
  | newline => cases hw : b.weakAllowed <;> simp [read, h, hw, Outline.findings]
  | literal l => simp [read, h, Outline.findings, foldl_report]
  | quote side => cases side <;> simp [read, h, Outline.findings, diagnostics_invalid]
  | _ => simp [read, h, Outline.findings, diagnostics_invalid]

/-- Outside of strings a string is opened by its quote and by nothing else. -/
theorem inString_read (h : ¬b.InString) : (b.read t).InString ↔ t.kind = .quote .opening := by
  have hkeeps : ∀ b' : Builder, b'.pending = b.pending → ¬b'.InString := by
    rintro b' hb ⟨s, hs⟩
    exact h ⟨s, hb ▸ hs⟩
  cases ht : t.kind with
  | quote side =>
    cases side with
    | opening => simp [InString, read, ht]
    | closing => simpa [read, ht] using hkeeps _ (pending_invalid b t)
  | bracket kind side =>
    cases side with
    | opening => simp [InString, read, ht]
    | closing => simpa [read, ht] using hkeeps _ (pending_close b t kind)
  | key | tag => simp [InString, read, ht]
  | newline =>
    cases hw : b.weakAllowed with
    | true =>
      have hpending : (b.read t).pending = b.pending := by simp [read, ht, hw]
      simpa using hkeeps _ hpending
    | false => simpa [read, ht, hw] using h
  | literal l =>
    have hpending : (b.read t).pending = b.pending := by simp [read, ht, foldl_report]
    simpa using hkeeps _ hpending
  | comma =>
    have hpending : (b.read t).pending = b.pending := by simp [read, ht]
    simpa using hkeeps _ hpending
  | ignored => simpa [read, ht] using h
  | _ => simpa [read, ht] using hkeeps _ (pending_invalid b t)

end Read

/-! ### What a token makes of a builder -/

/-- What a token makes of a builder, by what is pending. -/
inductive Outcome (b : Builder) (t : Token) : Builder → Prop
  | skip (hstring : ∀ s, b.pending ≠ .string s) (ht : t.kind = .ignored) : Outcome b t b
  | read (hpending : b.pending = .none) (ht : t.kind ≠ .ignored) : Outcome b t (b.read t)
  | invalid {tag : Tag} (hpending : b.pending = .tag tag) {unknown : Bool}
      (ht : t.kind = .invalid unknown) : Outcome b t (b.invalid t)
  | payload {tag : Tag} (hpending : b.pending = .tag tag) {kind : BlockKind}
      (ht : t.kind = .bracket kind .opening) :
      Outcome b t
        { b with
          frames := ⟨kind, t, b.index, some tag, []⟩ :: b.frames
          pending := .none
          weakAllowed := false }
  | unit {tag : Tag} (hpending : b.pending = .tag tag) (ht : keepsTag t = false) :
      Outcome b t ((b.complete tag.unit true).read t)
  | colon {key : Token} {i : Nat} (hpending : b.pending = .key key i) (ht : t.kind = .colon) :
      Outcome b t (b.complete (keyWithColon key i t b.index) false)
  | bareKey {key : Token} {i : Nat} (hpending : b.pending = .key key i)
      (hignored : t.kind ≠ .ignored)
      (hcolon : t.kind ≠ .colon) : Outcome b t ((b.complete (bareKey key i) false).read t)
  | text {s : OpenString} (hpending : b.pending = .string s) {text : String}
      (ht : stringPart? t = some text) :
      Outcome b t { b with pending := .string (s.extend text t b.index) }
  | badText {s : OpenString} (hpending : b.pending = .string s) (hkeeps : keepsString t = true)
      (ht : stringPart? t = none) :
      Outcome b t { b.invalid t with pending := .string (s.extend t.text t b.index) }
  | closingQuote {s : OpenString} (hpending : b.pending = .string s)
      (ht : t.kind = .quote .closing) :
      Outcome b t (b.complete (s.extend "" t b.index).chunk true)
  | cut {s : OpenString} (hpending : b.pending = .string s) (hkeeps : keepsString t = false)
      (ht : t.kind ≠ .quote .closing) :
      Outcome b t
        (((b.report (.error .unterminatedString s.range "Unterminated string.")).complete s.chunk
          true).read t)

/-- What a token can do inside a string. -/
theorem outcome_readInString {b : Builder} {s : OpenString} (hpending : b.pending = .string s)
    (t : Token) : Outcome b t (b.readInString s t) := by
  unfold readInString
  split
  next ht => exact .text hpending (by simp [stringPart?, ht])
  next ht =>
    split
    next c hc => exact .text hpending (by simp [stringPart?, ht, hc])
    next hc => exact .badText hpending (by simp [keepsString, ht]) (by simp [stringPart?, ht, hc])
  next ht => exact .text hpending (by simp [stringPart?, ht])
  next ht => exact .badText hpending (by simp [keepsString, ht]) (by simp [stringPart?, ht])
  next ht => exact .closingQuote hpending ht
  next htext hescape hnewline hinvalid hquote =>
    refine .cut hpending ?_ hquote
    cases ht : t.kind with
    | stringText escape => cases escape <;> simp_all
    | _ => simp_all [keepsString]

/-- A token that may stand between a tag and its payload. -/
theorem outcome_tag {b : Builder} {tag : Tag} (hpending : b.pending = .tag tag) (t : Token) :
    Outcome b t (if keepsTag t then b.read t else (b.complete tag.unit true).read t) := by
  split
  next hkeeps =>
    unfold keepsTag at hkeeps
    split at hkeeps
    next ht =>
      rw [show b.read t = b by simp [read, ht]]
      exact .skip (by simp [hpending]) ht
    next unknown ht =>
      rw [show b.read t = b.invalid t by simp [read, ht]]
      exact .invalid hpending ht
    next kind ht =>
      simp only [read, ht, hpending]
      exact .payload hpending ht
    next => cases hkeeps
  next hkeeps => exact .unit hpending (by simpa using hkeeps)

/-- All that a token can make of a builder. -/
theorem outcome_readNext (b : Builder) (t : Token) : Outcome b t (b.readNext t) := by
  unfold readNext
  split
  next hpending =>
    by_cases ht : t.kind = .ignored
    · rw [show b.read t = b by simp [read, ht]]
      exact .skip (by simp [hpending]) ht
    · exact .read hpending ht
  next tag hpending => exact outcome_tag hpending t
  next key i hpending =>
    split
    next ht => exact .skip (by simp [hpending]) ht
    next ht => exact .colon hpending ht
    next hignored hcolon => exact .bareKey hpending hignored hcolon
  next s hpending => exact outcome_readInString hpending t

/-! ### Steps outside of strings -/

section Step

variable {b : Builder} {t : Token}

@[simp] theorem frames_step : (b.step t).frames = (b.readNext t).frames := rfl

@[simp] theorem pending_step : (b.step t).pending = (b.readNext t).pending := rfl

@[simp] theorem diagnostics_step_eq : (b.step t).diagnostics = (b.readNext t).diagnostics := rfl

/-- Outside of strings a token is read when what was pending is complete, which neither the open
blocks nor the findings show. Only blanks and the colon of a key are not read. -/
theorem readNext_cases (h : ¬b.InString) :
    (t.kind = .ignored ∧ b.readNext t = b) ∨
    (b.AwaitsColon ∧ t.kind = .colon ∧ ∃ c, b.readNext t = b.complete c false) ∨
    ((b.AwaitsColon → t.kind ≠ .colon) ∧ ∃ b' : Builder, b.readNext t = b'.read t ∧
      b'.outline = b.outline ∧ b'.diagnostics = b.diagnostics ∧ ¬b'.InString) := by
  have hcomplete : ∀ (c : Chunk) (weak : Bool), (b.complete c weak).outline = b.outline ∧
      (b.complete c weak).diagnostics = b.diagnostics ∧ ¬(b.complete c weak).InString := by
    intro c weak
    refine ⟨ofFrames_complete b c weak, diagnostics_complete b c weak, ?_⟩
    rintro ⟨s, hs⟩
    cases hs
  have houtcome := outcome_readNext b t
  generalize b.readNext t = b' at houtcome ⊢
  cases houtcome with
  | skip _ ht => exact .inl ⟨ht, rfl⟩
  | read hpending _ =>
    exact .inr (.inr ⟨by simp [AwaitsColon, hpending], b, rfl, rfl, rfl, h⟩)
  | invalid hpending ht =>
    exact .inr (.inr ⟨by simp [ht], b, by simp [read, ht], rfl, rfl, h⟩)
  | payload hpending ht =>
    exact .inr (.inr ⟨by simp [ht], b, by simp [read, ht, hpending], rfl, rfl, h⟩)
  | unit hpending _ =>
    exact .inr (.inr ⟨by simp [AwaitsColon, hpending], _, rfl, hcomplete _ true⟩)
  | colon hpending ht => exact .inr (.inl ⟨⟨_, _, hpending⟩, ht, _, rfl⟩)
  | bareKey _ _ hcolon => exact .inr (.inr ⟨fun _ => hcolon, _, rfl, hcomplete _ false⟩)
  | text hpending | badText hpending | closingQuote hpending | cut hpending =>
    exact absurd ⟨_, hpending⟩ h

/-- Outside of strings the token and the outline determine the next outline. -/
theorem outline_step (h : ¬b.InString) : (b.step t).outline = b.outline.after t := by
  rcases readNext_cases (t := t) h with ⟨ht, heq⟩ | ⟨-, ht, c, heq⟩ | ⟨-, b', heq, hb', -, -⟩
  · simp [outline, heq, Outline.after, ht]
  · simp [outline, heq, Outline.after, ht]
  · rw [outline, frames_step, heq, ← outline, outline_read, hb']

/-- Outside strings only an opening quote leads into one. -/
theorem inString_step (h : ¬b.InString) : (b.step t).InString ↔ t.kind = .quote .opening := by
  rcases readNext_cases (t := t) h with ⟨ht, heq⟩ | ⟨-, ht, c, heq⟩ | ⟨-, b', heq, -, -, hb'⟩
  · simpa [InString, heq, ht] using h
  · simp [InString, heq, ht, complete]
  · rw [← inString_read b' t hb', ← heq]
    rfl

/-- What a token outside of strings adds to the findings. -/
theorem diagnostics_step (h : ¬b.InString) (hcolon : b.AwaitsColon → t.kind ≠ .colon) :
    (b.step t).diagnostics = b.diagnostics ++ b.outline.findings t := by
  rcases readNext_cases (t := t) h with ⟨ht, heq⟩ | ⟨hkey, ht, -⟩ | ⟨-, b', heq, hb', hd, -⟩
  · simp [heq, Outline.findings, ht]
  · exact absurd ht (hcolon hkey)
  · rw [diagnostics_step_eq, heq, diagnostics_read, hb', hd]

/-- The colon of a key adds nothing to the findings. -/
theorem diagnostics_step_colon (hkey : b.AwaitsColon) (ht : t.kind = .colon) :
    (b.step t).diagnostics = b.diagnostics := by
  obtain ⟨k, i, hpending⟩ := hkey
  simp [readNext, hpending, ht]

/-- A key waits for its colon. -/
theorem awaitsColon_step_key (h : ¬b.InString) (ht : t.kind = .key) : (b.step t).AwaitsColon := by
  rcases readNext_cases (t := t) h with ⟨ht', -⟩ | ⟨-, ht', -⟩ | ⟨-, b', heq, -⟩
  · simp [ht] at ht'
  · simp [ht] at ht'
  · exact ⟨t, b'.index, by simp [heq, read, ht]⟩

/-- It waits past blanks and comments. -/
theorem awaitsColon_step_ignored (h : b.AwaitsColon) (ht : t.kind = .ignored) :
    (b.step t).AwaitsColon := by
  obtain ⟨k, i, hpending⟩ := h
  exact ⟨k, i, by simp [readNext, hpending, ht]⟩

/-! ### Steps inside of strings -/

/-- A string that goes on leaves the open blocks as they are, and finds tokens that stand for
nothing at most. -/
theorem step_keepsString (h : b.InString) (ht : keepsString t = true) :
    (b.step t).InString ∧ (b.step t).outline = b.outline ∧
      ∃ n, (b.step t).diagnostics = b.diagnostics ++ .replicate n (invalidToken t) := by
  obtain ⟨s, hs⟩ := h
  have houtcome := outcome_readNext b t
  simp only [InString, outline, frames_step, pending_step, diagnostics_step_eq]
  generalize b.readNext t = b' at houtcome ⊢
  cases houtcome with
  | text => exact ⟨⟨_, rfl⟩, rfl, 0, by simp⟩
  | badText => exact ⟨⟨_, rfl⟩, rfl, 1, rfl⟩
  | _ => simp_all [keepsString]

/-- A closing quote ends the string and reports nothing. -/
theorem step_closing_quote (h : b.InString) (ht : t.kind = .quote .closing) :
    ¬(b.step t).InString ∧ (b.step t).outline = b.outline ∧
      (b.step t).diagnostics = b.diagnostics := by
  obtain ⟨s, hs⟩ := h
  have heq : b.readNext t = b.complete (s.extend "" t b.index).chunk true := by
    simp [readNext, hs, readInString, ht]
  exact ⟨by simp [InString, heq, complete], by simp [outline, heq], by simp [heq]⟩

/-- A token that cuts a string off is read as any other once that is reported. -/
theorem diagnostics_step_of_cut {s : OpenString} (hs : b.pending = .string s)
    (hkeeps : keepsString t = false) (hquote : t.kind ≠ .quote .closing) :
    (b.step t).diagnostics = b.diagnostics ++
      .error .unterminatedString s.range "Unterminated string." :: b.outline.findings t := by
  let e := Diagnostic.error .unterminatedString s.range "Unterminated string."
  have heq : b.readNext t = ((b.report e).complete s.chunk true).read t := by
    rw [readNext, hs]
    unfold readInString
    cases hk : t.kind <;> simp_all [keepsString] <;> rfl
  have houtline : ((b.report e).complete s.chunk true).outline = b.outline :=
    ofFrames_complete (b.report e) s.chunk true
  rw [diagnostics_step_eq, heq, diagnostics_read, houtline, diagnostics_complete, report,
    append_assoc, singleton_append]

/-- What a builder may report while it reads: an error of some kind, or brackets that do not
match. -/
inductive Finding : Diagnostic → Prop
  | error {kind : Diagnostic.Kind} (hkind : kind ≠ .bracketMismatch) (range : Range)
      (message : String) : Finding (.error kind range message)
  | mismatch (opened closed : Token) : Finding (mismatch opened closed)

/-- Findings about nesting are findings of the builder. -/
theorem finding_of_mem_findings {outline : Outline} {d : Diagnostic}
    (h : d ∈ outline.findings t) : Finding d := by
  rcases Outline.mem_findings_cases h with rfl | ⟨message, rfl⟩ | ⟨bracket, -, rfl⟩
  · exact .error (by decide) _ _
  · exact .error (by decide) _ _
  · exact .mismatch bracket t

/-- What was found stays found. A token adds that it stands for nothing in a string, that it cuts a
string off, and what the open blocks have to say of it. -/
theorem exists_diagnostics_step (b : Builder) (t : Token) :
    ∃ ds, (b.step t).diagnostics = b.diagnostics ++ ds ∧
      ∀ d ∈ ds, d = invalidToken t ∨
        (∃ s, b.pending = .string s ∧
          d = .error .unterminatedString s.range "Unterminated string.") ∨
        d ∈ b.outline.findings t := by
  by_cases hs : b.InString
  · cases hkeeps : keepsString t with
    | true =>
      obtain ⟨-, -, n, hn⟩ := step_keepsString hs hkeeps
      exact ⟨_, hn, fun d hd => .inl (mem_replicate.1 hd).2⟩
    | false =>
      by_cases hquote : t.kind = .quote .closing
      · exact ⟨[], by simpa using (step_closing_quote hs hquote).2.2, by simp⟩
      · obtain ⟨s, hpending⟩ := hs
        refine ⟨_, diagnostics_step_of_cut hpending hkeeps hquote, fun d hd => .inr ?_⟩
        exact (mem_cons.1 hd).imp_left fun hd => ⟨s, hpending, hd⟩
  · by_cases hcolon : b.AwaitsColon ∧ t.kind = .colon
    · exact ⟨[], by simpa using diagnostics_step_colon hcolon.1 hcolon.2, by simp⟩
    · exact ⟨_, diagnostics_step hs fun hkey ht => hcolon ⟨hkey, ht⟩, fun d hd => .inr (.inr hd)⟩

/-- What a token adds to the findings is an error of some kind, or about brackets. -/
theorem mem_diagnostics_step {d : Diagnostic} (h : d ∈ (b.step t).diagnostics) :
    d ∈ b.diagnostics ∨ Finding d := by
  obtain ⟨ds, hds, hcases⟩ := exists_diagnostics_step b t
  rw [hds] at h
  refine (mem_append.1 h).imp_right fun hd => ?_
  rcases hcases d hd with rfl | ⟨s, -, rfl⟩ | hd
  · exact .error (by decide) _ _
  · exact .error (by decide) _ _
  · exact finding_of_mem_findings hd

/-- A run adds only findings of the builder. -/
theorem mem_diagnostics_foldl_step {d : Diagnostic} {ts : List Token}
    (h : d ∈ (ts.foldl step b).diagnostics) : d ∈ b.diagnostics ∨ Finding d := by
  induction ts generalizing b with
  | nil => exact .inl h
  | cons t ts ih => exact (ih h).elim mem_diagnostics_step .inr

end Step

/-! ### The end of the tokens -/

section Finish

variable (b : Builder)

@[simp] theorem last_settle : b.settle.last = b.last := by
  unfold settle
  split <;> simp [complete, endTooEarly, report]

@[simp] theorem index_settle : b.settle.index = b.index := by
  unfold settle
  split <;> simp [endTooEarly, report]

@[simp] theorem ofFrames_settle : Outline.ofFrames b.settle.frames = .ofFrames b.frames := by
  unfold settle
  split <;> simp [endTooEarly, report]

theorem frames_settle_eq_nil : b.settle.frames = [] ↔ b.frames = [] := by
  have hmap := congrArg List.length (ofFrames_settle b)
  simp only [Outline.ofFrames, length_map] at hmap
  rw [← length_eq_zero_iff, hmap, length_eq_zero_iff]

/-- If no block is open, the end only settles what is pending. -/
theorem finish_eq_settle (h : b.frames = []) : b.finish = b.settle := by
  cases hl : b.last <;> simp [finish, hl, b.frames_settle_eq_nil.2 h]

/-- A string that is open when the tokens end is reported. -/
theorem exists_diagnostics_settle :
    ∃ n, b.settle.diagnostics = b.diagnostics ++ .replicate n b.tooEarly ∧
      (n ≠ 0 ↔ b.InString) := by
  cases hpending : b.pending with
  | string s => exact ⟨1, by simp [settle, hpending, endTooEarly, report, tooEarly],
      by simp [InString, hpending]⟩
  | _ => exact ⟨0, by simp [settle, hpending], by simp [InString, hpending]⟩

/-- When the tokens end, an open string and open blocks are reported. -/
theorem exists_diagnostics_finish (h : b.frames ≠ [] → b.last ≠ none) :
    ∃ n, b.finish.diagnostics = b.diagnostics ++ .replicate n b.tooEarly ∧
      (n ≠ 0 ↔ b.InString ∨ b.frames ≠ []) := by
  obtain ⟨n, hdiagnostics, hn⟩ := exists_diagnostics_settle b
  have hearly : b.settle.tooEarly = b.tooEarly := by simp [tooEarly, endOfInput]
  by_cases hopen : b.frames = []
  · refine ⟨n, ?_, by simp [hn, hopen]⟩
    rw [← hdiagnostics, finish_eq_settle b hopen]
  · obtain ⟨t, ht⟩ := Option.ne_none_iff_exists'.1 (h hopen)
    refine ⟨n + 1, ?_, by simp [hopen]⟩
    have hsettled : b.settle.frames.isEmpty = false := by
      simpa [frames_settle_eq_nil] using hopen
    rw [finish, last_settle, ht]
    simp only [hsettled, Bool.false_eq_true, if_false, diagnostics_popMany]
    rw [endTooEarly, report, ← tooEarly, hearly, hdiagnostics, replicate_succ',
      append_assoc]

/-- A builder with an open block has read a token. -/
theorem last_ne_none {tokens : List Token} (h : (tokens.foldl step {}).frames ≠ []) :
    (tokens.foldl step {}).last ≠ none := by
  rcases eq_nil_or_concat tokens with rfl | ⟨ts, t, rfl⟩
  · exact absurd rfl h
  · rw [concat_eq_append, foldl_append]
    simp [step]

end Finish

end Builder

/-- All that a builder finds: what it may report while it reads, and that the tokens end too
early. -/
theorem mem_diagnostics_ofTokens {tokens : List Token} {d : Diagnostic}
    (h : d ∈ (ofTokens tokens).2.diagnostics) :
    Finding d ∨ d = (tokens.foldl step {}).tooEarly := by
  obtain ⟨n, hfinish, -⟩ :=
    exists_diagnostics_finish (tokens.foldl step {}) last_ne_none
  have hd : d ∈ (tokens.foldl step {}).finish.diagnostics := h
  rw [hfinish] at hd
  rcases mem_append.1 hd with hd | hd
  · exact .inl ((mem_diagnostics_foldl_step hd).resolve_left not_mem_nil)
  · exact .inr (mem_replicate.1 hd).2

end Chunk

end TypedNotation
