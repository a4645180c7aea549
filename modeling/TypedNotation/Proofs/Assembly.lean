import TypedNotation.Proofs.DataParts
import TypedNotation.Proofs.SequencePhases
import TypedNotation.Proofs.SourceLexemes

/-!
# Chunks of written values

The builder, run over the tokens of a written value, adds one chunk to the innermost open block and
reports nothing. A tag at the end may still get a payload, so what is added is said of the builder
once it has settled (`Builder.Reads`). Runs compose, as the lexemes of a value do, and
`Value.exists_reads` puts them together by induction on the value.

`Chunk.Means` says what the chunk is good for: its data has the value, nothing is found in it, and
all of its blocks lie on one line. `Chunk.Lists` and `Chunk.Fields` describe the children of a
block: values, or keys and values, with one comma between two of them.
-/

namespace TypedNotation

open List Lexeme

/-! ### Literals -/

namespace Literal

theorem ne_underscore_of_isDigit {c : Char} (h : c.isDigit = true) : c ≠ '_' := by
  rintro rfl
  exact absurd h (by decide)

/-- An integer literal is read as the integer it was written for. -/
theorem read_int (v : Int64) {t : Token} (ht : t.text.toList = (Scalar.int v).source) :
    read .int t = (.int v, []) := by
  have hplain : ∀ c ∈ (Scalar.int v).source, c ≠ '_' := by
    intro c hc
    rw [Scalar.source, Numeral.toList_toString_int] at hc
    split at hc
    · rcases mem_cons.1 hc with rfl | hc
      · decide
      · exact ne_underscore_of_isDigit (Numeral.isDigit_of_mem_toDigits hc)
    · exact ne_underscore_of_isDigit (Numeral.isDigit_of_mem_toDigits hc)
  have hfilter : t.text.toList.filter (· != '_') = (Scalar.int v).source := by
    rw [ht, filter_eq_self]
    exact fun c hc => by simpa using hplain c hc
  have hint : int? (Scalar.int v).source = some v := by
    simp only [int?, Scalar.source, Numeral.signedValue?_toString]
    rw [if_pos ⟨v.minValue_le_toInt, v.toInt_le⟩, Int64.ofInt_toInt]
  simp only [read, hfilter, hint]

/-- A float literal is read as the float it was written for. -/
theorem read_float {x : Double} (hx : x.isFinite = true) {t : Token}
    (ht : t.text.toList = (Scalar.float x).source) : read .float t = (.float x, []) := by
  obtain ⟨htext, p, hp, hsource⟩ := Scalar.floatSource_eq hx
  have hchars : ∀ c ∈ p.chars, c ≠ '_' := by
    intro c hc
    rcases hp.mem_chars hc with hdigit | hmark
    · exact ne_underscore_of_isDigit hdigit
    · rintro rfl
      exact absurd hmark (by decide)
  have hplain : ∀ c ∈ Scalar.floatSource x, c ≠ '_' := by
    intro c hc
    rw [hsource] at hc
    split at hc
    · rcases mem_cons.1 hc with rfl | hc
      · decide
      · exact hchars c hc
    · exact hchars c hc
  have hfilter : t.text.toList.filter (· != '_') = Scalar.floatSource x := by
    rw [ht, Scalar.source, filter_eq_self]
    exact fun c hc => by simpa using hplain c hc
  have hfloat : float? (Scalar.floatSource x) = some x := by
    rw [float?, htext, Double.read?_text .document hx]
    simp [hx]
  simp only [read, hfilter, hfloat]

end Literal

/-- An escape stands for the character it was written for. -/
theorem Escape.decode?_escaped {c : Char} (h : Scalar.isEscaped c = true) :
    decode? (Scalar.escaped c) = some c := by
  have hhex : ∀ n < 128, codePoint? 4 (Scalar.hex4 n) = some (Char.ofNat n) := by decide +kernel
  unfold Scalar.escaped
  split
  next heq => rw [heq]; rfl
  split
  next heq => rw [heq]; rfl
  split
  next heq => rw [heq]; rfl
  split
  next heq => rw [heq]; rfl
  split
  next heq => rw [heq]; rfl
  next hq hb _ _ _ =>
    have hctl : c.toNat < 32 ∨ c.toNat = 127 := by simpa [Scalar.isEscaped, hq, hb] using h
    have hcode := hhex c.toNat (by omega)
    rw [Char.ofNat_toNat] at hcode
    simpa [hctl, decode?] using hcode

namespace Chunk

namespace Builder

variable {b : Builder} {t : Token} {ts : List Token}

/-! ### Runs -/

/-- Reads tokens. -/
def run (b : Builder) (ts : List Token) : Builder :=
  ts.foldl step b

@[simp] theorem run_nil (b : Builder) : b.run [] = b := rfl

@[simp] theorem run_cons (b : Builder) (t : Token) (ts : List Token) :
    b.run (t :: ts) = (b.step t).run ts := rfl

/-- A run goes on where an earlier one has ended. -/
@[simp] theorem run_append (b : Builder) (ts us : List Token) :
    b.run (ts ++ us) = (b.run ts).run us :=
  foldl_append

/-- A builder counts its tokens. -/
theorem index_run (b : Builder) (ts : List Token) : (b.run ts).index = b.index + ts.length := by
  induction ts generalizing b with
  | nil => rfl
  | cons t ts ih =>
    rw [run_cons, ih, length_cons, step]
    dsimp only
    omega

/-- It knows the last token. -/
theorem last_run_concat (b : Builder) (ts : List Token) (t : Token) :
    (b.run (ts ++ [t])).last = some t := by
  rw [run_append]
  rfl

/-- Adds chunks to the innermost open block. -/
def pushAll (b : Builder) (cs : List Chunk) : Builder :=
  { b with
    frames := b.frames.modifyHead fun f => { f with children := f.children ++ cs }
    top := if b.frames.isEmpty then b.top ++ cs else b.top }

/-- What is known some tokens later, when these were complete chunks. -/
def resume (b : Builder) (n : Nat) (last : Option Token) (cs : List Chunk) : Builder :=
  { b.pushAll cs with index := b.index + n, last, pending := .none, weakAllowed := true }

theorem push_eq_pushAll (b : Builder) (c : Chunk) : b.push c = b.pushAll [c] := by
  obtain ⟨index, last, frames, top, pending, weak, diagnostics⟩ := b
  cases frames <;> rfl

/-- A builder that is resumed twice. -/
theorem resume_resume (b : Builder) (m n : Nat) (l l' : Option Token) (cs ds : List Chunk) :
    (b.resume m l cs).resume n l' ds = b.resume (m + n) l' (cs ++ ds) := by
  obtain ⟨index, last, frames, top, pending, weak, diagnostics⟩ := b
  cases frames with
  | nil | cons f fs => simp [resume, pushAll, Nat.add_assoc]

/-- The tokens were complete chunks, up to a tag that waits for a payload. -/
structure Reads (b : Builder) (ts : List Token) (cs : List Chunk) : Prop where
  pending : (b.run ts).pending = .none ∨ ∃ tag, (b.run ts).pending = .tag tag
  settle : ∃ last, (b.run ts).settle = b.resume ts.length last cs

/-- A run that only adds chunks reads them. -/
theorem reads_of_eq {cs : List Chunk} (last : Option Token)
    (h : b.run ts = b.resume ts.length last cs) : Reads b ts cs := by
  refine ⟨.inl (by rw [h]; rfl), last, ?_⟩
  rw [h]
  rfl

/-- Tokens that were complete chunks may come before. -/
theorem Reads.prepend {ts us : List Token} {cs ds : List Chunk} {l : Option Token} {w : Bool}
    (hts : b.run ts = { b.resume ts.length l cs with weakAllowed := w })
    (h : Reads (b.run ts) us ds) : Reads b (ts ++ us) (cs ++ ds) := by
  obtain ⟨last, hlast⟩ := h.settle
  refine ⟨by rw [run_append]; exact h.pending, last, ?_⟩
  rw [run_append, hlast, length_append, ← resume_resume _ _ _ l, hts]
  rfl

/-- Whether a token ends a tag that waits for a payload. -/
def IsBreak (t : Token) : Prop :=
  t.kind = .comma ∨ t.kind = .newline ∨ ∃ kind, t.kind = .bracket kind .closing

/-- A builder in front of a separator or a closing bracket is as good as settled. -/
theorem step_settle (hb : b.pending = .none ∨ ∃ tag, b.pending = .tag tag)
    (ht : IsBreak t) : b.step t = b.settle.step t := by
  rcases hb with hnone | ⟨tag, htag⟩
  · rw [settle, hnone]
  · have hkeeps : keepsTag t = false := by
      rcases ht with h | h | ⟨kind, h⟩ <;> simp [keepsTag, h]
    have hsettle : b.settle = b.complete tag.unit true := by rw [settle, htag]
    have hindex : (b.complete tag.unit true).index = b.index := by
      rw [complete, push_eq_pushAll]
      rfl
    rw [hsettle, step, step, hindex, readNext, htag, readNext]
    simp [hkeeps, complete]

/-- A break completes what was read. -/
theorem Reads.run_break {cs : List Chunk} (h : Reads b ts cs) (ht : IsBreak t) :
    ∃ last, b.run (ts ++ [t]) = (b.resume ts.length last cs).step t := by
  obtain ⟨last, hlast⟩ := h.settle
  refine ⟨last, ?_⟩
  rw [run_append, run_cons, run_nil, step_settle h.pending ht, hlast]

/-! ### Separators -/

/-- A comma is a separator. -/
theorem step_comma (b : Builder) (n : Nat) (l : Option Token) (cs : List Chunk)
    (ht : t.kind = .comma) :
    (b.resume n l cs).step t =
      b.resume (n + 1) (some t) (cs ++ [.separator false t.range (.single (b.index + n))]) := by
  rw [← resume_resume b n 1 l]
  simp only [step, readNext, read, ht, resume, push_eq_pushAll]
  rfl

/-- A newline is a weak separator. -/
theorem step_newline (b : Builder) (n : Nat) (l : Option Token) (cs : List Chunk)
    (ht : t.kind = .newline) :
    (b.resume n l cs).step t =
      { b.resume (n + 1) (some t) (cs ++ [.separator true t.range (.single (b.index + n))]) with
        weakAllowed := false } := by
  rw [← resume_resume b n 1 l]
  simp only [step, readNext, read, ht, resume, push_eq_pushAll]
  rfl

/-- Blanks and comments only count. -/
theorem step_ignored (hb : b.pending = .none) (ht : t.kind = .ignored) :
    b.step t = { b with index := b.index + 1, last := some t } := by
  simp [step, readNext, hb, read, ht]

/-- Two runs of chunks with a comma and a blank between them. -/
theorem Reads.comma {b : Builder} {ts us : List Token} {cs : List Chunk} {comma blank : Token}
    (hts : Reads b ts cs) (hcomma : comma.kind = .comma) (hblank : blank.kind = .ignored)
    {P : List Chunk → Prop} (hus : ∀ b' : Builder, b'.pending = .none → ∃ ds, P ds ∧
      Reads b' us ds) :
    ∃ r t ds, P ds ∧ Reads b (ts ++ comma :: blank :: us) (cs ++ .separator false r t :: ds) := by
  obtain ⟨last, hrun⟩ := hts.run_break (.inl hcomma)
  rw [step_comma b _ last cs hcomma] at hrun
  have hrun' : b.run (ts ++ [comma, blank]) =
      b.resume (ts ++ [comma, blank]).length (some blank)
        (cs ++ [.separator false comma.range (.single (b.index + ts.length))]) := by
    rw [show ts ++ [comma, blank] = ts ++ [comma] ++ [blank] by simp, run_append, hrun, run_cons,
      run_nil, step_ignored rfl hblank]
    simp [resume, Nat.add_assoc]
  obtain ⟨ds, hds, hreads⟩ := hus (b.run (ts ++ [comma, blank])) (by rw [hrun']; rfl)
  refine ⟨comma.range, .single (b.index + ts.length), ds, hds, ?_⟩
  simpa using Reads.prepend (w := true) hrun' hreads

/-! ### Keys, tags and brackets -/

/-- A key with its colon and a blank, and the chunk behind it. -/
theorem Reads.entry (hb : b.pending = .none) {key colon blank : Token} (hkey : key.kind = .key)
    (hcolon : colon.kind = .colon) (hblank : blank.kind = .ignored) {name : String}
    (hname : key.text = name) {us : List Token} {P : Chunk → Prop}
    (hus : ∀ b' : Builder, b'.pending = .none → ∃ c, P c ∧ Reads b' us [c]) :
    ∃ r s t c, P c ∧ Reads b (key :: colon :: blank :: us) [.key name r s t, c] := by
  subst hname
  have hrun : b.run [key, colon, blank] = { b.resume 3 (some blank)
      [keyWithColon key b.index colon (b.index + 1)] with weakAllowed := false } := by
    have hpending : (b.step key).pending = .key key b.index := by
      simp [step, readNext, hb, read, hkey]
    have hsecond : (b.step key).step colon = { b.resume 2 (some colon)
        [keyWithColon key b.index colon (b.index + 1)] with weakAllowed := false } := by
      rw [step, readNext, hpending]
      simp only [hcolon]
      simp [step, readNext, hb, read, hkey, complete, push_eq_pushAll, resume, pushAll]
    rw [run_cons, run_cons, hsecond, run_cons, run_nil, step_ignored rfl hblank]
    rfl
  obtain ⟨c, hc, hreads⟩ := hus (b.run [key, colon, blank]) (by rw [hrun]; rfl)
  exact ⟨_, _, _, c, hc, Reads.prepend hrun hreads⟩

/-- What is open behind an opening bracket. -/
theorem step_opening {tag : Option Tag}
    (hb : (b.pending = .none ∧ tag = none) ∨ ∃ tg, b.pending = .tag tg ∧ tag = some tg)
    {kind : BlockKind} (ht : t.kind = .bracket kind .opening) :
    b.step t = { b with
      index := b.index + 1, last := some t, frames := ⟨kind, t, b.index, tag, []⟩ :: b.frames,
      pending := .none, weakAllowed := false } := by
  rcases hb with ⟨hnone, rfl⟩ | ⟨tg, htag, rfl⟩
  · simp [step, readNext, hnone, read, ht]
  · simp [step, readNext, htag, keepsTag, read, ht]

/-- A closing bracket makes a chunk of what was read since its opening one. -/
theorem step_closing (hb : b.pending = .none) {f : Frame} {fs : List Frame}
    (hf : b.frames = f :: fs) (ht : t.kind = .bracket f.kind .closing) :
    b.step t = { b with frames := fs }.resume 1 (some t) [f.chunk t b.index] := by
  simp [step, readNext, hb, read, ht, close, hf, pop, push_eq_pushAll, resume, pushAll]

/-- A block without children. -/
theorem reads_emptyBlock {tag : Option Tag}
    (hb : (b.pending = .none ∧ tag = none) ∨ ∃ tg, b.pending = .tag tg ∧ tag = some tg)
    {opening closing : Token} {kind : BlockKind} (hopening : opening.kind = .bracket kind .opening)
    (hclosing : closing.kind = .bracket kind .closing) :
    Reads b [opening, closing]
      [Frame.chunk ⟨kind, opening, b.index, tag, []⟩ closing (b.index + 1)] := by
  refine reads_of_eq (some closing) ?_
  rw [run_cons, run_cons, run_nil, step_opening hb hopening, step_closing rfl rfl hclosing]
  rfl

/-- A block with the children that were read between its brackets. -/
theorem Reads.block {b : Builder} {tag : Option Tag}
    (hb : (b.pending = .none ∧ tag = none) ∨ ∃ tg, b.pending = .tag tg ∧ tag = some tg)
    {opening closing : Token} {kind : BlockKind} (hopening : opening.kind = .bracket kind .opening)
    (hclosing : closing.kind = .bracket kind .closing) {ts : List Token} {cs : List Chunk}
    (hts : Reads (b.step opening) ts cs) :
    Reads b (opening :: (ts ++ [closing]))
      [Frame.chunk ⟨kind, opening, b.index, tag, cs⟩ closing (b.index + 1 + ts.length)] := by
  obtain ⟨last, hrun⟩ := hts.run_break (t := closing) (.inr (.inr ⟨kind, hclosing⟩))
  refine reads_of_eq (some closing) ?_
  have hopen := step_opening hb hopening
  rw [run_cons, hrun]
  have hframes : ((b.step opening).resume ts.length last cs).frames =
      ⟨kind, opening, b.index, tag, cs⟩ :: b.frames := by
    rw [hopen]
    simp [resume, pushAll]
  rw [step_closing rfl hframes hclosing, hopen]
  simp [resume, pushAll, Nat.add_assoc, Nat.add_comm 1]

/-- A tag in front of a payload. -/
theorem Reads.tag (hb : b.pending = .none) (ht : t.kind = .tag) {us : List Token} {ds : List Chunk}
    (hus : Reads (b.step t) us ds) : Reads b (t :: us) ds := by
  obtain ⟨last, hlast⟩ := hus.settle
  refine ⟨hus.pending, last, ?_⟩
  rw [run_cons, hlast]
  simp [step, readNext, hb, read, ht, resume, pushAll, Nat.add_assoc, Nat.add_comm 1]

/-- A tag alone. -/
theorem reads_unit (hb : b.pending = .none) (ht : t.kind = .tag) :
    Reads b [t]
      [Tag.unit ⟨String.ofList (t.text.toList.dropWhile (· == '#')), t.range, b.index⟩] := by
  have hpending : (b.step t).pending =
      .tag ⟨String.ofList (t.text.toList.dropWhile (· == '#')), t.range, b.index⟩ := by
    simp [step, readNext, hb, read, ht]
  refine ⟨.inr ⟨_, hpending⟩, some t, ?_⟩
  rw [run_cons, run_nil, settle, hpending]
  simp [step, readNext, hb, read, ht, complete, push_eq_pushAll, resume, pushAll]

/-! ### Scalars -/

/-- A well-formed literal is read as its value. -/
theorem reads_literal (hb : b.pending = .none) {literal : Literal} (ht : t.kind = .literal literal)
    {s : Scalar} (hs : literal.read t = (s, [])) :
    Reads b [t] [.value s t.range (.single b.index)] := by
  refine reads_of_eq (some t) ?_
  simp [step, readNext, hb, read, ht, hs, push_eq_pushAll, resume, pushAll]

/-- Tokens inside a string that add some text to it. -/
def AddsText (ts : List Token) (text : List Char) : Prop :=
  ∀ (b : Builder) (s : OpenString), b.pending = .string s → ∃ last s',
    b.run ts = { b with index := b.index + ts.length, last, pending := .string s' } ∧
      s'.text.toList = s.text.toList ++ text

/-- A token inside a string, plain or an escape, adds its text. -/
theorem addsText_token {text : List Char}
    (ht : (t.kind = .stringText false ∧ t.text.toList = text) ∨
      ∃ c, t.kind = .stringText true ∧ Escape.decode? t.text.toList = some c ∧ text = [c]) :
    AddsText [t] text := by
  intro b s hb
  rcases ht with ⟨hkind, htext⟩ | ⟨c, hkind, hdecode, rfl⟩
  · refine ⟨some t, s.extend t.text t b.index, ?_, by simp [OpenString.extend, htext]⟩
    simp [step, readNext, hb, readInString, hkind]
  · refine ⟨some t, s.extend (String.singleton c) t b.index, ?_, by simp [OpenString.extend]⟩
    simp [step, readNext, hb, readInString, hkind, hdecode]

/-- Two parts of a string add their texts. -/
theorem AddsText.append {ts us : List Token} {text more : List Char} (hts : AddsText ts text)
    (hus : AddsText us more) : AddsText (ts ++ us) (text ++ more) := by
  intro b s hb
  obtain ⟨last₁, s₁, hrun₁, htext₁⟩ := hts b s hb
  obtain ⟨last, s', hrun, htext⟩ := hus (b.run ts) s₁ (by rw [hrun₁])
  refine ⟨last, s', ?_, by rw [htext, htext₁, append_assoc]⟩
  rw [run_append, hrun, hrun₁]
  simp [Nat.add_assoc]

/-- The lexemes inside a string add what they were written for. -/
theorem addsText_stringLexemes (blocks : List BlockKind) (line : Nat) (cs : List Char) :
    ∀ column, AddsText (tokensFrom line column (Scalar.stringLexemes blocks cs)) cs := by
  refine Scalar.stringLexemes_induction
    (P := fun cs xs => ∀ column, AddsText (tokensFrom line column xs) cs) ?_ ?_ ?_ cs
  · intro column b s hb
    exact ⟨b.last, s, by rw [← hb]; rfl, by simp⟩
  · intro c cs xs hc ih column
    have htoken : AddsText [token line column ⟨Scalar.escaped c, .escape, blocks⟩] [c] :=
      addsText_token (.inr ⟨c, rfl, by simp [token, Escape.decode?_escaped hc], rfl⟩)
    exact htoken.append (ih _)
  · intro c own cs _ _ ih column
    have htoken : AddsText [token line column ⟨c :: own, .stringText, blocks⟩] (c :: own) :=
      addsText_token (.inl ⟨rfl, by simp [token]⟩)
    exact htoken.append (ih _)

/-- A string between its quotes. -/
theorem AddsText.reads {text : List Char} (hts : AddsText ts text) (hb : b.pending = .none)
    {opening closing : Token} (hopening : opening.kind = .quote .opening)
    (hclosing : closing.kind = .quote .closing) :
    ∃ r t, Reads b (opening :: (ts ++ [closing])) [.value (.string (String.ofList text)) r t] := by
  have hopen : b.step opening = { b with
      index := b.index + 1, last := some opening,
      pending := .string ⟨b.index, b.index, opening.range, ""⟩ } := by
    simp [step, readNext, hb, read, hopening]
  obtain ⟨last, s, hrun, htext⟩ := hts (b.step opening) _ (by rw [hopen])
  have hvalue : s.text = String.ofList text := String.toList_inj.1 (by simpa using htext)
  rw [← hvalue]
  refine ⟨s.range.combine closing.range, ⟨s.first, b.index + 1 + ts.length + 1⟩,
    reads_of_eq (some closing) ?_⟩
  rw [run_cons, run_append, hrun, hopen]
  simp [step, readNext, readInString, hclosing, complete, push_eq_pushAll, resume, pushAll,
    OpenString.extend, OpenString.chunk, Nat.add_assoc, Nat.add_comm 1]

/-- The tokens of a scalar are one chunk. -/
theorem reads_scalar (blocks : List BlockKind) (line column : Nat) (hb : b.pending = .none)
    {s : Scalar} (hs : ∀ x, s = .float x → x.isFinite = true) :
    ∃ r t, Reads b (tokensFrom line column (s.lexemes blocks)) [.value s r t] := by
  cases s with
  | int v => exact ⟨_, _, reads_literal hb rfl (Literal.read_int v (by simp [token]))⟩
  | float x =>
    exact ⟨_, _, reads_literal hb rfl (Literal.read_float (hs x rfl) (by simp [token]))⟩
  | boolean v =>
    refine ⟨_, _, reads_literal hb rfl ?_⟩
    cases v <;> rfl
  | string v =>
    have hinside := addsText_stringLexemes blocks line v.toList (column + 1)
    rw [← String.ofList_toList (s := v), Scalar.lexemes, tokensFrom_cons,
      tokensFrom_append]
    rw [String.toList_ofList]
    exact hinside.reads hb rfl rfl

end Builder

/-! ### Meaning of chunks -/

/-- A chunk whose data has a value, in which nothing is found, and whose blocks lie on one line. -/
def Means (c : Chunk) (v : Value) : Prop :=
  ∃ d, c.data? = some (d, []) ∧ d.value = v ∧ ∀ b ∈ d.blocks, b.range.isMultiline = false

/-- Values with one comma between two of them. -/
inductive Lists : List Chunk → List Value → Prop where
  | single {c : Chunk} {v : Value} : Means c v → Lists [c] [v]
  | cons {c : Chunk} {v : Value} {r : Range} {t : TokenRange} {cs : List Chunk} {vs : List Value} :
    Means c v → Lists cs vs → Lists (c :: .separator false r t :: cs) (v :: vs)

/-- Keys and values with one comma between two values and the next key. -/
inductive Fields : List Chunk → List (String × Value) → Prop where
  | single {k : String} {r s : Range} {t : TokenRange} {c : Chunk} {v : Value} :
    Means c v → Fields [.key k r s t, c] [(k, v)]
  | cons {k : String} {r s r' : Range} {t t' : TokenRange} {c : Chunk} {v : Value} {cs : List Chunk}
    {es : List (String × Value)} :
    Means c v → Fields cs es → Fields (.key k r s t :: c :: .separator false r' t' :: cs)
      ((k, v) :: es)

open Sequence

variable {cs : List Chunk} {vs : List Value} {es : List (String × Value)}

/-- No edge is behind a value. -/
theorem Means.reachesEdge {c : Chunk} {v : Value} (h : Means c v) (rest : List Item) :
    reachesEdge (⟨c, c.data?⟩ :: rest) = false := by
  obtain ⟨d, hd, -⟩ := h
  cases c with
  | separator weak r t => cases hd
  | _ => rfl

theorem Lists.reachesEdge (h : Lists cs vs) : reachesEdge (items cs) = false := by
  cases h with
  | single hc | cons hc _ => exact hc.reachesEdge _

theorem Fields.reachesEdge (h : Fields cs es) : reachesEdge (items cs) = false := by
  cases h <;> rfl

/-- Chunks in which nothing is found, whose data have the values and whose blocks lie on one
line. -/
structure Quiet (seen cs : List Chunk) (vs : List Value) : Prop where
  findings : findings seen cs = []
  values : (cs.filterMap value?).map Data.value = vs
  blocks : ∀ d ∈ cs.filterMap value?, ∀ b ∈ d.blocks, b.range.isMultiline = false

/-- A value alone reports nothing. -/
theorem Means.quiet {c : Chunk} {v : Value} (h : Means c v) (seen : List Chunk) :
    Quiet seen [c] [v] := by
  obtain ⟨d, hd, hv, hblocks⟩ := h
  exact ⟨by simp [Sequence.findings, ownFindings, hd], by simp [value?, hd, hv],
    by simpa [value?, hd] using hblocks⟩

/-- A comma between two items is accepted without a word. -/
theorem Means.quiet_cons {c : Chunk} {v : Value} (h : Means c v) {seen : List Chunk} {r : Range}
    {t : TokenRange} (hedge : Sequence.reachesEdge (items cs) = false)
    (hcs : Quiet (seen ++ [c] ++ [.separator false r t]) cs vs) :
    Quiet seen (c :: .separator false r t :: cs) (v :: vs) := by
  have hcomma := h.reachesEdge (items seen).reverse
  obtain ⟨d, hd, hv, hblocks⟩ := h
  have hvalues : (c :: .separator false r t :: cs).filterMap value? = d :: cs.filterMap value? := by
    rw [filterMap_cons_some (b := d) (by simp [value?, hd]), filterMap_cons_none rfl]
  refine ⟨?_, by rw [hvalues, map_cons, hv, hcs.values], by
    rw [hvalues]; exact forall_mem_cons.2 ⟨hblocks, hcs.blocks⟩⟩
  rw [hd] at hcomma
  simpa [Sequence.findings, ownFindings, hd, data?, needlessComma, items_concat, hcomma, hedge]
    using hcs.findings

theorem Quiet.key {seen : List Chunk} {k : String} {r r' : Range} {t : TokenRange}
    (h : Quiet (seen ++ [.key k r r' t]) cs vs) : Quiet seen (.key k r r' t :: cs) vs :=
  ⟨by simpa [Sequence.findings, ownFindings, data?, needlessComma] using h.findings, h.values,
    h.blocks⟩

/-- Elements report nothing. -/
theorem Lists.quiet (h : Lists cs vs) (seen : List Chunk) : Quiet seen cs vs := by
  induction h generalizing seen with
  | single hc => exact hc.quiet seen
  | cons hc hcs ih => exact hc.quiet_cons hcs.reachesEdge (ih _)

/-- Properties report nothing. -/
theorem Fields.quiet (h : Fields cs es) (seen : List Chunk) : Quiet seen cs (es.map (·.2)) := by
  induction h generalizing seen with
  | single hc => exact (hc.quiet _).key
  | cons hc hcs ih => exact (hc.quiet_cons hcs.reachesEdge (ih _)).key

/-- The keys of properties are their names. -/
theorem Fields.keyNames (h : Fields cs es) : keyNames cs = es.map (·.1) := by
  have hnone : ∀ {c : Chunk} {v : Value}, Means c v → c.key? = none := by
    rintro c v ⟨d, hd, -⟩
    cases c with
    | key => cases hd
    | _ => rfl
  induction h with
  | single hc => rw [keyNames_cons, keyNames_cons, hnone hc]; rfl
  | cons hc _ ih => rw [keyNames_cons, keyNames_cons, hnone hc, keyNames_cons, ih]; rfl

/-- A value moves a block as any value does. -/
theorem Means.next {c : Chunk} {v : Value} (h : Means c v) (l : Level) : l.next c = l.value := by
  obtain ⟨d, hd, -⟩ := h
  simp [Level.next_of_data? hd]

/-- Values with single commas between them are in sequence. -/
theorem Lists.run_eq (h : Lists cs vs) {kind : BlockKind} (hkind : kind ≠ .dict) {phase : Phase}
    (hphase : phase = .fresh ∨ phase = .comma) :
    Level.run ⟨some kind, phase, []⟩ cs = some ⟨some kind, .item, []⟩ := by
  have htakes : ∀ {phase : Phase}, phase = .fresh ∨ phase = .comma →
      Level.value ⟨some kind, phase, []⟩ = some ⟨some kind, .item, []⟩ := by
    rintro _ (rfl | rfl) <;> cases kind <;> first | rfl | exact absurd rfl hkind
  induction h generalizing phase with
  | single hc => rw [Level.run_cons, hc.next, htakes hphase, Option.bind_some, Level.run_nil]
  | cons hc _ ih =>
    rw [Level.run_cons, hc.next, htakes hphase, Option.bind_some, Level.run_cons]
    exact ih (.inr rfl)

/-- Keys and values with single commas between them are in sequence, if the keys differ. -/
theorem Fields.run_eq (h : Fields cs es) {phase : Phase} (hphase : phase = .fresh ∨ phase = .comma)
    {keys : List String} (hk : (keys ++ es.map (·.1)).Nodup) :
    Level.run ⟨some .dict, phase, keys⟩ cs = some ⟨some .dict, .item, keys ++ es.map (·.1)⟩ := by
  have hkey : ∀ {phase : Phase} {keys : List String} {k : String} {rest : List String},
      phase = .fresh ∨ phase = .comma → (keys ++ k :: rest).Nodup →
      Level.key ⟨some .dict, phase, keys⟩ k = some ⟨some .dict, .key, keys ++ [k]⟩ := by
    intro phase keys k rest hphase hk
    have hnew : k ∉ keys := fun hmem => (nodup_append.1 hk).2.2 _ hmem _ (by simp) rfl
    rcases hphase with rfl | rfl <;> simp [Level.key, Level.takesKey, hnew]
  have hvalue : ∀ keys, Level.value ⟨some .dict, .key, keys⟩ = some ⟨some .dict, .item, keys⟩ :=
    fun _ => rfl
  induction h generalizing phase keys with
  | single hc =>
    rw [Level.run_cons, Level.next, hkey hphase hk, Option.bind_some, Level.run_cons, hc.next,
      hvalue]
    rfl
  | @cons k _ _ _ _ _ _ _ _ _ hc _ ih =>
    have hrest : Level.run ⟨some .dict, .comma, keys ++ [k]⟩ _ = _ :=
      ih (.inr rfl) (by simpa using hk)
    rw [append_assoc] at hrest
    rw [Level.run_cons, Level.next, hkey hphase hk, Option.bind_some, Level.run_cons, hc.next,
      hvalue]
    exact hrest

/-! ### Blocks -/

/-- Children whose contents have a value, in which nothing is found, and whose blocks lie on one
line. -/
def Holds (kind : BlockKind) (cs : List Chunk) (v : Value) : Prop :=
  ∃ contents, Sequence.contents kind (items cs) = (contents, []) ∧
    Data.contentsValue contents = v ∧ ∀ r t, r.isMultiline = false →
      ∀ b ∈ Data.blocksOf ⟨contents, r, t⟩, b.range.isMultiline = false

/-- Chunks that report nothing and make a complete block hold its value. -/
theorem Quiet.holds (h : Quiet [] cs vs) {kind : BlockKind} {l : Level}
    (hrun : (Level.inside kind).run cs = some l) (hcomplete : l.isComplete = true) {v : Value}
    (hv : Data.contentsValue (Sequence.contents kind (items cs)).1 = v) : Holds kind cs v := by
  obtain ⟨hfound, hchildren⟩ := contents_of_run hrun hcomplete
  refine ⟨_, Prod.ext rfl (hfound.trans h.findings), hv, fun r t hr b hb => ?_⟩
  rw [Data.blocksOf_eq, hchildren] at hb
  rcases mem_cons.1 hb with rfl | hb
  · exact hr
  · obtain ⟨d, hd, hb⟩ := mem_flatMap.1 hb
    exact h.blocks d hd b hb

/-- Elements make an array or a tuple. -/
theorem Lists.holds (h : Lists cs vs) :
    Holds .array cs (.array vs) ∧ Holds .tuple cs (.tuple vs) := by
  have hquiet := h.quiet []
  refine ⟨hquiet.holds (h.run_eq (by simp) (.inl rfl)) rfl ?_,
    hquiet.holds (h.run_eq (by simp) (.inl rfl)) rfl ?_⟩
  all_goals simp [Sequence.contents, list_eq, Data.contentsValue, Data.itemValues_eq, hquiet.values]

/-- Properties with different names make a dict. -/
theorem Fields.holds (h : Fields cs es) (hk : (es.map (·.1)).Nodup) :
    Holds .dict cs (.dict es) := by
  have hquiet := h.quiet []
  have hrun : (Level.inside .dict).run cs = _ := h.run_eq (.inl rfl) (by simpa using hk)
  refine hquiet.holds hrun rfl ?_
  obtain ⟨entries, ranges, hcontents, hnames⟩ := names_of_run hrun rfl
  have hchildren := (contents_of_run hrun rfl).2
  rw [hcontents, Contents.children] at hchildren
  have hvalues := hquiet.values
  rw [← hchildren, map_map] at hvalues
  have hes : es = (es.map (·.1)).zip (es.map (·.2)) := zip_of_prod rfl rfl
  rw [hcontents, Data.contentsValue, Data.entryValues_eq, hes, ← hvalues, ← h.keyNames, ← hnames,
    zip_map']
  rfl

/-- The empty blocks. -/
theorem holds_nil {kind : BlockKind} {v : Value}
    (hv : (kind, v) ∈ [(.dict, .dict []), (.array, .array []), (.tuple, .tuple [])]) :
    Holds kind [] v := by
  have hself : ∀ (contents : Contents Data) (r : Range) (t : TokenRange), r.isMultiline = false →
      ∀ b ∈ [(⟨contents, r, t⟩ : Block Data)], b.range.isMultiline = false := by
    intro contents r t hr b hb
    rw [mem_singleton.1 hb]
    exact hr
  simp only [mem_cons, Prod.mk.injEq, not_mem_nil, or_false] at hv
  rcases hv with ⟨rfl, rfl⟩ | ⟨rfl, rfl⟩ | ⟨rfl, rfl⟩
  · exact ⟨.dict [] [], rfl, rfl, hself _⟩
  · exact ⟨.array [], rfl, rfl, hself _⟩
  · exact ⟨.tuple [], rfl, rfl, hself _⟩

/-- A value behind a tag, if there is one. -/
def Tag.wrap (tag : Option Tag) (v : Value) : Value :=
  match tag with
  | some t => .enum t.name (some v)
  | none => v

/-- Two ranges on one line make a range on it. -/
theorem isMultiline_combine {a b : Range} (ha : a.isMultiline = false) (hb : b.isMultiline = false)
    (h : a.start.line = b.start.line) : (a.combine b).isMultiline = false := by
  simp only [Range.isMultiline, bne_eq_false_iff_eq] at *
  have hmin : (min a.start b.start).line = a.start.line := by
    simp only [min]
    split <;> simp [h]
  have hmax : (max a.stop b.stop).line = a.stop.line := by
    simp only [max]
    split <;> omega
  simp only [Range.combine, hmin, hmax, ha]

/-- A block on one line means what its children hold. -/
theorem Holds.means_chunk {kind : BlockKind} {v : Value} (h : Holds kind cs v)
    {opening closing : Token} (hrange : (opening.range.combine closing.range).isMultiline = false)
    (tag : Option Tag) (i j : Nat) :
    Means (Frame.chunk ⟨kind, opening, i, tag, cs⟩ closing j) (Tag.wrap tag v) := by
  obtain ⟨contents, hcontents, hv, hblocks⟩ := h
  cases tag with
  | none =>
    refine ⟨.block ⟨contents, opening.range.combine closing.range, ⟨i, j + 1⟩⟩, ?_, ?_, ?_⟩
    · simp [Frame.chunk, data?, blockData, hcontents]
    · simpa [Data.value, Tag.wrap] using hv
    · exact hblocks _ _ hrange
  | some tag =>
    refine ⟨.enum tag.name tag.range
      (some ⟨contents, opening.range.combine closing.range, ⟨i, j + 1⟩⟩)
      (tag.range.combine (opening.range.combine closing.range)) ⟨tag.index, j + 1⟩, ?_, ?_, ?_⟩
    · simp [Frame.chunk, data?, blockData, hcontents]
    · simpa [Data.value, Tag.wrap] using hv
    · exact hblocks _ _ hrange

end Chunk

namespace Value

open Chunk

variable {blocks : List BlockKind} {line : Nat} {kind : BlockKind} {b : Builder} {v : Value}

/-- The tokens of some separated parts are children that hold a value. -/
def ReadsInside (kind : BlockKind) (blocks : List BlockKind) (line : Nat)
    (parts : List (List Lexeme)) (v : Value) : Prop :=
  (parts = [] ∧ Holds kind [] v) ∨
    ∀ (b : Builder) (column : Nat), b.pending = .none → ∃ cs, Holds kind cs v ∧
      b.Reads (tokensFrom line column (separated (kind :: blocks) parts)) cs

/-- Brackets around children are one chunk, behind a tag or not. -/
theorem exists_reads_bracketed {parts : List (List Lexeme)}
    (h : ReadsInside kind blocks line parts v) (tag : Option Tag)
    (hb : (b.pending = .none ∧ tag = none) ∨ ∃ tg, b.pending = .tag tg ∧ tag = some tg)
    (column : Nat) :
    ∃ c, Means c (Tag.wrap tag v) ∧
      b.Reads (tokensFrom line column (bracketed kind blocks parts)) [c] := by
  have hrange : ∀ a c d e, ((Range.onLine line a c).combine (.onLine line d e)).isMultiline =
      false :=
    fun a c d e => isMultiline_combine (by simp [Range.isMultiline, Range.onLine])
      (by simp [Range.isMultiline, Range.onLine]) rfl
  rw [bracketed, tokensFrom_cons, tokensFrom_append]
  rcases h with ⟨rfl, hnil⟩ | hread
  · refine ⟨_, ?_, Builder.reads_emptyBlock hb rfl rfl⟩
    exact hnil.means_chunk (hrange _ _ _ _) tag _ _
  · have hpending : (b.step (token line column
        ⟨[kind.openChar], .bracket kind .opening, kind :: blocks⟩)).pending = .none := by
      rw [Builder.step_opening hb rfl]
    obtain ⟨cs, hholds, hreads⟩ := hread _ (column + Text.units16 [kind.openChar]) hpending
    refine ⟨_, ?_, hreads.block hb rfl rfl⟩
    exact hholds.means_chunk (hrange _ _ _ _) tag _ _

/-- A part in front of more parts. -/
theorem exists_reads_separated {line column : Nat} {xs : List Lexeme}
    {more : List (List Lexeme)} (hne : more ≠ []) {cs : List Chunk}
    (hxs : b.Reads (tokensFrom line column xs) cs) {P : List Chunk → Prop}
    (hmore : ∀ (b' : Builder) (column : Nat), b'.pending = .none → ∃ ds, P ds ∧
      b'.Reads (tokensFrom line column (separated blocks more)) ds) :
    ∃ r t ds, P ds ∧ b.Reads (tokensFrom line column (separated blocks (xs :: more)))
      (cs ++ .separator false r t :: ds) := by
  rw [separated, tokensFrom_append]
  · exact hxs.comma rfl rfl fun b' hb' => hmore b' _ hb'
  · exact hne

/-- A key in front of a value. -/
theorem exists_reads_entry (column : Nat) (name : String)
    {xs : List Lexeme} (hb : b.pending = .none)
    (hxs : ∀ (b' : Builder) (column : Nat), b'.pending = .none → ∃ c, Means c v ∧
      b'.Reads (tokensFrom line column xs) [c]) :
    ∃ r s t c, Means c v ∧ b.Reads (tokensFrom line column (⟨name.toList, .key, blocks⟩ ::
      ⟨[':'], .colon, blocks⟩ :: ⟨[' '], .blank, blocks⟩ :: xs)) [.key name r s t, c] := by
  rw [tokensFrom_cons, tokensFrom_cons, tokensFrom_cons]
  exact Builder.Reads.entry hb rfl rfl rfl (by simp [token]) fun b' hb' => hxs b' _ hb'

/-- A tag's name is its text without the mark. -/
theorem dropWhile_mark {tag : String} (h : isTagName tag = true) :
    String.ofList (('#' :: tag.toList).dropWhile (· == '#')) = tag := by
  obtain ⟨hne, hall⟩ := isNameChar_of_isTagName h
  obtain ⟨c, cs, hcs⟩ := exists_cons_of_ne_nil hne
  have hc : (c == '#') = false := by
    rw [beq_eq_false_iff_ne]
    exact Scan.ne_of_isNameChar (hall c (by rw [hcs]; simp)) (by decide)
  rw [hcs, dropWhile_cons_of_pos (by decide), dropWhile_cons_of_neg (by simp [hc]), ← hcs,
    String.ofList_toList]

/-- Brackets around children behind a tag are one chunk. -/
theorem exists_reads_payload {parts : List (List Lexeme)} (h : ReadsInside kind blocks line parts v)
    {tag : String} (htag : isTagName tag = true) (hb : b.pending = .none) (column : Nat) :
    ∃ c, Means c (.enum tag (some v)) ∧ b.Reads (tokensFrom line column
      (⟨'#' :: tag.toList, .tag, blocks⟩ :: bracketed kind blocks parts)) [c] := by
  have hpending : (b.step (token line column ⟨'#' :: tag.toList, .tag, blocks⟩)).pending =
      .tag ⟨tag, .onLine line column (column + Text.units16 ('#' :: tag.toList)), b.index⟩ := by
    have hname := dropWhile_mark htag
    simp [Builder.step, Builder.readNext, hb, Builder.read, token,
      Category.tokenKind] at hname ⊢
    exact hname
  obtain ⟨c, hmeans, hreads⟩ := exists_reads_bracketed h _ (.inr ⟨_, hpending, rfl⟩)
    (column + Text.units16 ('#' :: tag.toList))
  exact ⟨c, hmeans, Builder.Reads.tag hb rfl hreads⟩

/-- A block is read if its elements are. -/
theorem readsInside_of_lists {items : List Value}
    (hnil : items = [] → Holds kind [] v)
    (hcons : ∀ cs, Lists cs items → Holds kind cs v)
    (h : items ≠ [] → ∀ (b : Builder) (column : Nat), b.pending = .none → ∃ cs, Lists cs items ∧
      b.Reads (tokensFrom line column
        (separated (kind :: blocks) (itemLexemes (kind :: blocks) items))) cs) :
    ReadsInside kind blocks line (itemLexemes (kind :: blocks) items) v := by
  by_cases hne : items = []
  · exact .inl ⟨by rw [hne]; rfl, hnil hne⟩
  · refine .inr fun b column hb => ?_
    obtain ⟨cs, hlists, hreads⟩ := h hne b column hb
    exact ⟨cs, hcons cs hlists, hreads⟩

/-- A dict is read if its properties are. -/
theorem readsInside_of_fields
    {entries : List (String × Value)} (hk : (entries.map (·.1)).Nodup)
    (h : entries ≠ [] → ∀ (b : Builder) (column : Nat), b.pending = .none → ∃ cs,
      Fields cs entries ∧
      b.Reads (tokensFrom line column
        (separated (.dict :: blocks) (entryLexemes (.dict :: blocks) entries))) cs) :
    ReadsInside .dict blocks line (entryLexemes (.dict :: blocks) entries) (.dict entries) := by
  by_cases hne : entries = []
  · exact .inl ⟨by rw [hne]; rfl, by rw [hne]; exact holds_nil (by simp)⟩
  · refine .inr fun b column hb => ?_
    obtain ⟨cs, hfields, hreads⟩ := h hne b column hb
    exact ⟨cs, hfields.holds hk, hreads⟩

mutual

/-- **The tokens of a value are one chunk that means the value.** -/
theorem exists_reads (blocks : List BlockKind) (line column : Nat) (v : Value)
    (h : v.isEncodable = true) (b : Builder) (hb : b.pending = .none) :
    ∃ c, Means c v ∧ b.Reads (tokensFrom line column (v.lexemes blocks)) [c] := by
  have hbracketed (hv : v.isBlock = true) :
      ∃ c, Means c v ∧ b.Reads (tokensFrom line column (v.lexemes blocks)) [c] := by
    obtain ⟨kind, parts, heq, hinside⟩ := exists_readsInside blocks line v hv h
    rw [heq]
    exact exists_reads_bracketed hinside none (.inl ⟨hb, rfl⟩) column
  match v with
  | .scalar s =>
    obtain ⟨r, t, hreads⟩ := Builder.reads_scalar blocks line column hb (s := s)
      (by rintro x rfl; exact h)
    exact ⟨_, ⟨.primitive s r t, rfl, rfl, by simp [Data.blocks]⟩, hreads⟩
  | .enum tag none =>
    refine ⟨_, ?_, Builder.reads_unit hb rfl⟩
    refine ⟨_, rfl, ?_, by simp [Data.blocks]⟩
    simpa [Data.value, token] using dropWhile_mark h
  | .enum tag (some payload) =>
    simp only [isEncodable, Bool.and_eq_true] at h
    obtain ⟨kind, parts, heq, hinside⟩ := exists_readsInside blocks line payload h.1.2 h.2
    rw [lexemes, payloadLexemes, heq]
    exact exists_reads_payload hinside h.1.1 hb column
  | .dict _ | .array _ | .tuple _ => exact hbracketed rfl
termination_by (sizeOf v, 1)

/-- The text of a block is read as its value. -/
theorem exists_readsInside (blocks : List BlockKind) (line : Nat) (v : Value)
    (hblock : v.isBlock = true) (h : v.isEncodable = true) :
    ∃ kind parts, v.lexemes blocks = bracketed kind blocks parts ∧
      ReadsInside kind blocks line parts v := by
  match v with
  | .dict entries =>
    simp only [isEncodable, Bool.and_eq_true, decide_eq_true_eq] at h
    refine ⟨.dict, _, rfl, readsInside_of_fields h.1 fun hne b column hb => ?_⟩
    exact exists_reads_entries _ line column entries hne h.2 b hb
  | .array items =>
    refine ⟨.array, _, rfl, readsInside_of_lists ?_ (fun _ h => h.holds.1) ?_⟩
    · rintro rfl
      exact holds_nil (by simp)
    · exact fun hne b column hb => exists_reads_items _ line column items hne h b hb
  | .tuple items =>
    refine ⟨.tuple, _, rfl, readsInside_of_lists ?_ (fun _ h => h.holds.2) ?_⟩
    · rintro rfl
      exact holds_nil (by simp)
    · exact fun hne b column hb => exists_reads_items _ line column items hne h b hb
termination_by (sizeOf v, 0)

/-- The text of properties is read as these. -/
theorem exists_reads_entries (blocks : List BlockKind) (line column : Nat)
    (entries : List (String × Value)) (hne : entries ≠ []) (h : entriesEncodable entries = true)
    (b : Builder) (hb : b.pending = .none) :
    ∃ cs, Fields cs entries ∧ b.Reads (tokensFrom line column
      (separated blocks (entryLexemes blocks entries))) cs := by
  match entries with
  | [] => exact absurd rfl hne
  | [(name, v)] =>
    simp only [entriesEncodable, Bool.and_eq_true] at h
    obtain ⟨r, s, t, c, hmeans, hreads⟩ := exists_reads_entry column name hb
      fun b' column hb' => exists_reads blocks line column v h.1.2 b' hb'
    exact ⟨_, .single hmeans, hreads⟩
  | (name, v) :: next :: rest =>
    rw [entriesEncodable, Bool.and_eq_true, Bool.and_eq_true] at h
    obtain ⟨r, s, t, c, hmeans, hreads⟩ := exists_reads_entry column name hb
      fun b' column hb' => exists_reads blocks line column v h.1.2 b' hb'
    obtain ⟨r', t', cs, hfields, hall⟩ := exists_reads_separated (by simp [entryLexemes]) hreads
      fun b' column hb' => exists_reads_entries blocks line column (next :: rest) (by simp) h.2 b'
        hb'
    exact ⟨_, .cons hmeans hfields, hall⟩
termination_by (sizeOf entries, 0)

/-- The text of elements is read as these. -/
theorem exists_reads_items (blocks : List BlockKind) (line column : Nat) (items : List Value)
    (hne : items ≠ []) (h : itemsEncodable items = true) (b : Builder) (hb : b.pending = .none) :
    ∃ cs, Lists cs items ∧ b.Reads (tokensFrom line column
      (separated blocks (itemLexemes blocks items))) cs := by
  match items with
  | [] => exact absurd rfl hne
  | [v] =>
    simp only [itemsEncodable, Bool.and_eq_true] at h
    obtain ⟨c, hmeans, hreads⟩ := exists_reads blocks line column v h.1 b hb
    exact ⟨[c], .single hmeans, hreads⟩
  | v :: w :: rest =>
    rw [itemsEncodable, Bool.and_eq_true] at h
    obtain ⟨c, hmeans, hreads⟩ := exists_reads blocks line column v h.1 b hb
    obtain ⟨r, t, cs, hlists, hall⟩ := exists_reads_separated (by simp [itemLexemes]) hreads
      fun b' column hb' => exists_reads_items blocks line column (w :: rest) (by simp) h.2 b' hb'
    exact ⟨_, .cons hmeans hlists, hall⟩
termination_by (sizeOf items, 0)

end

end Value

end TypedNotation
