import TypedNotation.Proofs.Fatality

/-!
# Places of chunks

The builder puts ranges together as it goes: a string grows token by token, a key gets its colon, a
block ends at its closing bracket, a tag in front of it comes first. In a document without
mismatched brackets all of this comes out right.

The tokens of a document follow each other (`Token.InOrder`). A range and a range of tokens go
together when the one runs from the start of the first token to the stop of the last (`Spans`).
`Chunk.Placed` says of a chunk, and of all chunks inside it, from which tokens it was made.

A builder is *laid out* (`Builder.Laid`) when its chunks are placed and every open block is behind
all that was found before it. A token keeps this (`Laid.step`), so a run does (`Walk.laid_run`).
-/

namespace TypedNotation

open List Position Token

/-! ### Tokens in order -/

namespace Token

/-- The tokens lie between two positions, one behind the other. -/
structure Run (start stop : Position) (ts : List Token) : Prop where
  le : start ≤ stop
  within : ∀ t ∈ ts, start ≤ t.range.start ∧ t.range.start ≤ t.range.stop ∧ t.range.stop ≤ stop
  ordered : ts.Pairwise fun a b => a.range.stop ≤ b.range.start

theorem Run.nil {start stop : Position} (h : start ≤ stop) : Run start stop [] :=
  ⟨h, by simp, .nil⟩

/-- Two runs of tokens, one behind the other. -/
theorem Run.append {start middle stop : Position} {ts us : List Token} (hts : Run start middle ts)
    (hus : Run middle stop us) : Run start stop (ts ++ us) := by
  refine ⟨le_trans hts.le hus.le, fun t ht => ?_, ?_⟩
  · rcases mem_append.1 ht with ht | ht
    · obtain ⟨hstart, hle, hstop⟩ := hts.within t ht
      exact ⟨hstart, hle, le_trans hstop hus.le⟩
    · obtain ⟨hstart, hle, hstop⟩ := hus.within t ht
      exact ⟨le_trans hts.le hstart, hle, hstop⟩
  · refine pairwise_append.2 ⟨hts.ordered, hus.ordered, fun a ha b hb => ?_⟩
    exact le_trans (hts.within a ha).2.2 (hus.within b hb).1

theorem Run.singleton {t : Token} (h : t.range.start ≤ t.range.stop) :
    Run t.range.start t.range.stop [t] := by
  refine ⟨h, fun u hu => ?_, pairwise_singleton _ _⟩
  rw [mem_singleton.1 hu]
  exact ⟨le_refl _, h, le_refl _⟩

/-- Tokens that follow each other. -/
def InOrder (ts : List Token) : Prop :=
  ∃ start stop, Run start stop ts

namespace InOrder

variable {ts : List Token} {a b : Token} {i j : Nat}

/-- No token stops before it starts. -/
theorem start_le_stop (h : InOrder ts) {i : Nat} {t : Token} (ht : ts[i]? = some t) :
    t.range.start ≤ t.range.stop := by
  obtain ⟨start, stop, hrun⟩ := h
  exact (hrun.within t (mem_of_getElem? ht)).2.1

theorem stop_le_start (h : InOrder ts) (ha : ts[i]? = some a) (hb : ts[j]? = some b)
    (hij : i < j) : a.range.stop ≤ b.range.start := by
  obtain ⟨start, stop, hrun⟩ := h
  obtain ⟨hi, rfl⟩ := List.getElem?_eq_some_iff.1 ha
  obtain ⟨hj, rfl⟩ := List.getElem?_eq_some_iff.1 hb
  exact pairwise_iff_getElem.1 hrun.ordered i j hi hj hij

/-- Later tokens start no earlier. -/
theorem start_le_start (h : InOrder ts) (ha : ts[i]? = some a) (hb : ts[j]? = some b)
    (hij : i ≤ j) : a.range.start ≤ b.range.start := by
  rcases Nat.lt_or_eq_of_le hij with hlt | rfl
  · exact le_trans (h.start_le_stop ha) (h.stop_le_start ha hb hlt)
  · obtain rfl : a = b := Option.some.inj (ha.symm.trans hb)
    exact le_refl _

/-- Later tokens stop no earlier. -/
theorem stop_le_stop (h : InOrder ts) (ha : ts[i]? = some a) (hb : ts[j]? = some b)
    (hij : i ≤ j) : a.range.stop ≤ b.range.stop := by
  rcases Nat.lt_or_eq_of_le hij with hlt | rfl
  · exact le_trans (h.stop_le_start ha hb hlt) (h.start_le_stop hb)
  · obtain rfl : a = b := Option.some.inj (ha.symm.trans hb)
    exact le_refl _

end InOrder

end Token

namespace Document

/-- The tokens of a line follow each other. -/
theorem run_tokensFrom (line column : Nat) (xs : List Lexeme) :
    Run ⟨line, column⟩ ⟨line, column + Text.units16 (Lexeme.chars xs)⟩
      (Lexeme.tokensFrom line column xs) := by
  induction xs generalizing column with
  | nil => exact .nil (by simp [le_def])
  | cons x xs ih =>
    have hfirst : Run ⟨line, column⟩ ⟨line, column + Text.units16 x.text⟩ [x.token line column] :=
      Run.singleton (t := x.token line column)
        (by simp [le_def, Lexeme.token, Range.onLine])
    have hrest := hfirst.append (ih (column + Text.units16 x.text))
    simpa [Nat.add_assoc] using hrest

/-- The tokens of lines follow each other. -/
theorem run_tokensOfLines (s : LineState) (line : Nat) (lines : List (List Char)) :
    Run ⟨line, 0⟩ ⟨line + lines.length, 0⟩ (s.tokensOfLines line lines) := by
  induction lines generalizing s line with
  | nil => exact .nil (by simp [le_def])
  | cons text rest ih =>
    have hline := run_tokensFrom line 0 (s.scan text).1
    rw [Lexeme.chars, s.scan_text, Nat.zero_add] at hline
    have hnewline : Run ⟨line, Text.units16 text⟩ ⟨line + 1, 0⟩
        [newline line (Text.units16 text)] :=
      Run.singleton (t := newline line (Text.units16 text))
        (by simp [le_def, newline])
    have hrest := (hline.append hnewline).append (ih (s.scan text).2 (line + 1))
    rwa [Nat.add_assoc, Nat.add_comm 1] at hrest

/-- The tokens of a document follow each other. -/
theorem inOrder_tokensOf (text : String) : InOrder (tokensOf text) := by
  rw [tokensOf_eq]
  exact ⟨_, _, run_tokensOfLines {} 0 (linesOf text)⟩

end Document

/-! ### Spans and rows -/

/-- A range runs from the start of the first token of a token range to the stop of the last. -/
structure Spans (ts : List Token) (r : Range) (n : TokenRange) : Prop where
  lt : n.start < n.stop
  start : ∃ t, ts[n.start]? = some t ∧ r.start = t.range.start
  stop : ∃ t, ts[n.stop - 1]? = some t ∧ r.stop = t.range.stop

namespace Spans

variable {ts : List Token} {r r' : Range} {n n' : TokenRange}

/-- A token spans its own range. -/
theorem single {i : Nat} {t : Token} (ht : ts[i]? = some t) : Spans ts t.range (.single i) :=
  ⟨Nat.lt_succ_self i, ⟨t, ht, rfl⟩, ⟨t, ht, rfl⟩⟩

/-- Two spans in a row make one. -/
theorem combine (hts : InOrder ts) (h : Spans ts r n) (h' : Spans ts r' n')
    (hstart : n.start ≤ n'.start) (hstop : n.stop ≤ n'.stop) :
    Spans ts (r.combine r') ⟨n.start, n'.stop⟩ := by
  obtain ⟨hlt, ⟨a, ha, hra⟩, ⟨b, hb, hrb⟩⟩ := h
  obtain ⟨hlt', ⟨a', ha', hra'⟩, ⟨b', hb', hrb'⟩⟩ := h'
  have hmin : (r.combine r').start = r.start := by
    have hle : r.start ≤ r'.start := by
      rw [hra, hra']
      exact hts.start_le_start ha ha' hstart
    exact if_pos hle
  have hmax : (r.combine r').stop = r'.stop := by
    have hle : r.stop ≤ r'.stop := by
      rw [hrb, hrb']
      exact hts.stop_le_stop hb hb' (by omega)
    exact if_pos hle
  exact ⟨by dsimp only; omega, ⟨a, ha, hmin.trans hra⟩, ⟨b', hb', hmax.trans hrb'⟩⟩

/-- What ends before something begins ends in front of it. -/
theorem stop_le_start (hts : InOrder ts) (h : Spans ts r n) (h' : Spans ts r' n')
    (hle : n.stop ≤ n'.start) : r.stop ≤ r'.start := by
  obtain ⟨hlt, -, ⟨b, hb, hrb⟩⟩ := h
  obtain ⟨-, ⟨a', ha', hra'⟩, -⟩ := h'
  rw [hrb, hra']
  exact hts.stop_le_start hb ha' (by omega)

end Spans

namespace TokenRange

/-- Token ranges that are not empty, one behind the other, between two indices. -/
structure Row (lo hi : Nat) (ns : List TokenRange) : Prop where
  within : ∀ n ∈ ns, lo ≤ n.start ∧ n.start < n.stop ∧ n.stop ≤ hi
  ordered : ns.Pairwise fun a b => a.stop ≤ b.start

namespace Row

variable {lo hi hi' : Nat} {ns : List TokenRange}

theorem nil (lo hi : Nat) : Row lo hi [] :=
  ⟨by simp, .nil⟩

theorem mono (h : Row lo hi ns) (hle : hi ≤ hi') : Row lo hi' ns :=
  ⟨fun n hn => ⟨(h.within n hn).1, (h.within n hn).2.1, (h.within n hn).2.2.trans hle⟩, h.ordered⟩

theorem sublist {ms : List TokenRange} (h : Row lo hi ns) (hms : ms.Sublist ns) : Row lo hi ms :=
  ⟨fun n hn => h.within n (hms.subset hn), h.ordered.sublist hms⟩

/-- A row with a range behind it. -/
theorem concat (h : Row lo hi ns) {n : TokenRange} (hlo : lo ≤ n.start) (hstart : hi ≤ n.start)
    (hlt : n.start < n.stop) (hstop : n.stop ≤ hi') : Row lo hi' (ns ++ [n]) := by
  refine ⟨fun m hm => ?_, ?_⟩
  · rcases mem_append.1 hm with hm | hm
    · obtain ⟨hmlo, hmlt, hmhi⟩ := h.within m hm
      exact ⟨hmlo, hmlt, by omega⟩
    · rw [mem_singleton.1 hm]
      exact ⟨hlo, hlt, hstop⟩
  · refine pairwise_append.2 ⟨h.ordered, pairwise_singleton _ _, fun m hm k hk => ?_⟩
    rw [mem_singleton.1 hk]
    have := (h.within m hm).2.2
    omega

end Row

end TokenRange

/-! ### Placed chunks -/

/-- The tag that a token spells, without its mark. -/
def Token.tagName (t : Token) : String :=
  String.ofList (t.text.toList.dropWhile (· == '#'))

/-- A range goes from an opening bracket of a kind through a closing one of the same kind. -/
structure Enclosed (ts : List Token) (kind : BlockKind) (r : Range) (n : TokenRange) : Prop extends
    Spans ts r n where
  opening : ts[n.start]?.map (·.kind) = some (.bracket kind .opening)
  closing : ts[n.stop - 1]?.map (·.kind) = some (.bracket kind .closing)

/-- The two brackets are different tokens. -/
theorem Enclosed.start_lt_last {ts : List Token} {kind : BlockKind} {r : Range} {n : TokenRange}
    (h : Enclosed ts kind r n) : n.start < n.stop - 1 := by
  have hlt := h.lt
  have hne : n.start ≠ n.stop - 1 := by
    intro heq
    have hkinds := heq ▸ h.opening
    simp [h.closing] at hkinds
  omega

/-- A range goes from an opening quote through a closing one, with the parts of a string between
them. -/
structure Quoted (ts : List Token) (r : Range) (n : TokenRange) : Prop extends Spans ts r n where
  opening : ts[n.start]?.map (·.kind) = some (.quote .opening)
  closing : ts[n.stop - 1]?.map (·.kind) = some (.quote .closing)
  inside : ∀ i t, n.start < i → i < n.stop - 1 → ts[i]? = some t →
    Chunk.Builder.keepsString t = true

namespace Chunk

variable {ts : List Token}

mutual

/-- From which tokens a chunk was made, and all chunks inside of it. -/
inductive Placed (ts : List Token) : Chunk → Prop
  | literal {i : Nat} {t : Token} {l : Literal} (ht : ts[i]? = some t)
      (hkind : t.kind = .literal l) :
      Placed ts (.value (l.read t).1 t.range (.single i))
  | string {text : String} {r : Range} {n : TokenRange} (hquoted : Quoted ts r n) :
      Placed ts (.value (.string text) r n)
  | separator {weak : Bool} {i : Nat} {t : Token} (ht : ts[i]? = some t) :
      Placed ts (.separator weak t.range (.single i))
  | key {i stop : Nat} {t : Token} {r : Range} (ht : ts[i]? = some t) (hkind : t.kind = .key)
      (hspans : Spans ts r ⟨i, stop⟩) : Placed ts (.key t.text t.range r ⟨i, stop⟩)
  | unit {i : Nat} {t : Token} (ht : ts[i]? = some t) (hkind : t.kind = .tag) :
      Placed ts (.enum t.tagName t.range none t.range (.single i))
  | block {b : Bracketed Chunk} (hb : BlockPlaced ts b) : Placed ts (.block b)
  | payload {i : Nat} {t : Token} {b : Bracketed Chunk} {r : Range} (ht : ts[i]? = some t)
      (hkind : t.kind = .tag) (hlt : i < b.tokens.start) (hb : BlockPlaced ts b)
      (hspans : Spans ts r ⟨i, b.tokens.stop⟩) :
      Placed ts (.enum t.tagName t.range (some b) r ⟨i, b.tokens.stop⟩)

/-- The brackets of a block are those of its kind, and its chunks lie between them in a row. -/
inductive BlockPlaced (ts : List Token) : Bracketed Chunk → Prop
  | mk {b : Bracketed Chunk} (henclosed : Enclosed ts b.kind b.range b.tokens)
      (hrow : TokenRange.Row (b.tokens.start + 1) (b.tokens.stop - 1) (b.children.map tokens))
      (hchildren : ∀ c ∈ b.children, Placed ts c) : BlockPlaced ts b

end

/-- A chunk spans its tokens. -/
theorem Placed.spans {c : Chunk} (h : c.Placed ts) : Spans ts c.range c.tokens := by
  cases h with
  | literal ht _ => exact .single ht
  | string hquoted => exact hquoted.toSpans
  | separator ht => exact .single ht
  | key _ _ hspans => exact hspans
  | unit ht _ => exact .single ht
  | block hb =>
    obtain ⟨henclosed, -, -⟩ := hb
    exact henclosed.toSpans
  | payload _ _ _ _ hspans => exact hspans

/-- Placed chunks in a row. -/
structure Siblings (ts : List Token) (lo hi : Nat) (cs : List Chunk) : Prop where
  row : TokenRange.Row lo hi (cs.map tokens)
  placed : ∀ c ∈ cs, c.Placed ts

namespace Siblings

variable {ts : List Token} {lo hi hi' : Nat} {cs : List Chunk}

theorem nil : Siblings ts lo hi [] :=
  ⟨.nil lo hi, by simp⟩

theorem mono (h : Siblings ts lo hi cs) (hle : hi ≤ hi') : Siblings ts lo hi' cs :=
  ⟨h.row.mono hle, h.placed⟩

/-- Siblings with a chunk behind them. -/
theorem concat (h : Siblings ts lo hi cs) {c : Chunk} (hc : c.Placed ts) (hlo : lo ≤ c.tokens.start)
    (hstart : hi ≤ c.tokens.start) (hstop : c.tokens.stop ≤ hi') :
    Siblings ts lo hi' (cs ++ [c]) := by
  refine ⟨?_, fun d hd => ?_⟩
  · rw [map_append]
    exact h.row.concat hlo hstart hc.spans.lt hstop
  · rcases mem_append.1 hd with hd | hd
    · exact h.placed d hd
    · rwa [mem_singleton.1 hd]

end Siblings

/-! ### Laid out builders -/

/-- A tag that was read from a token. -/
inductive Tag.Placed (ts : List Token) : Tag → Prop
  | mk {i : Nat} {t : Token} (ht : ts[i]? = some t) (hkind : t.kind = .tag) :
      Tag.Placed ts ⟨t.tagName, t.range, i⟩

/-- A tag without a payload is a placed chunk. -/
theorem Tag.Placed.unit {tag : Tag} (h : tag.Placed ts) : tag.unit.Placed ts := by
  obtain ⟨ht, hkind⟩ := h
  exact .unit ht hkind

namespace Frame

/-- The index of the first token of an open block, which may be that of its tag. -/
def start (f : Frame) : Nat :=
  match f.tag with
  | some tag => tag.index
  | none => f.index

/-- An open block that was read from an opening bracket, and from a tag in front of it. -/
structure Placed (ts : List Token) (f : Frame) : Prop where
  bracket : ts[f.index]? = some f.bracket
  kind : f.bracket.kind = .bracket f.kind .opening
  tag : ∀ tag ∈ f.tag, tag.Placed ts ∧ tag.index < f.index

variable {ts : List Token} {f : Frame}

theorem tokens_chunk (f : Frame) (t : Token) (i : Nat) :
    (f.chunk t i).tokens = ⟨f.start, i + 1⟩ := by
  unfold chunk start
  dsimp only
  split <;> simp_all [tokens]

/-- A block that ends at a closing bracket of its kind is placed if all in it is. -/
theorem Placed.chunk (hts : InOrder ts) (h : f.Placed ts) {t : Token} {i : Nat}
    (ht : ts[i]? = some t) (hkind : t.kind = .bracket f.kind .closing) (hlt : f.index < i)
    (hchildren : Siblings ts (f.index + 1) i f.children) : (f.chunk t i).Placed ts := by
  have hspans : Spans ts (f.bracket.range.combine t.range) ⟨f.index, i + 1⟩ :=
    (Spans.single h.bracket).combine hts (.single ht) hlt.le (Nat.succ_le_succ hlt.le)
  have hblock : BlockPlaced ts
      ⟨f.kind, f.children, f.bracket.range.combine t.range, ⟨f.index, i + 1⟩⟩ :=
    ⟨⟨hspans, by simp [h.bracket, h.kind], by simp [ht, hkind]⟩, hchildren.row, hchildren.placed⟩
  unfold Frame.chunk
  dsimp only
  split
  next tag htag =>
    obtain ⟨⟨hmark, hmarkKind⟩, hbefore⟩ := h.tag tag htag
    refine .payload hmark hmarkKind hbefore hblock ?_
    exact (Spans.single hmark).combine hts hspans hbefore.le
      (Nat.succ_le_succ (hbefore.trans hlt).le)
  next => exact .block hblock

end Frame

/-- Open blocks, innermost first, and the chunks outside of them. All lies before an index, and what
is outside of a block lies before that block. -/
inductive Stack (ts : List Token) (top : List Chunk) : Nat → List Frame → Prop
  | nil {hi : Nat} (htop : Siblings ts 0 hi top) : Stack ts top hi []
  | cons {hi : Nat} {f : Frame} {fs : List Frame} (hframe : f.Placed ts) (hlt : f.index < hi)
      (hchildren : Siblings ts (f.index + 1) hi f.children) (houter : Stack ts top f.start fs) :
      Stack ts top hi (f :: fs)

/-- Open blocks lie before any later token. -/
theorem Stack.mono {top : List Chunk} {hi hi' : Nat} {fs : List Frame} (h : Stack ts top hi fs)
    (hle : hi ≤ hi') : Stack ts top hi' fs := by
  cases h with
  | nil htop => exact .nil (htop.mono hle)
  | cons hframe hlt hchildren houter =>
    exact .cons hframe (hlt.trans_le hle) (hchildren.mono hle) houter

/-- The chunks at the top level are placed. -/
theorem Stack.placed_of_mem_top {top : List Chunk} {hi : Nat} {fs : List Frame}
    (h : Stack ts top hi fs) : ∀ c ∈ top, c.Placed ts := by
  induction h with
  | nil htop => exact htop.placed
  | cons _ _ _ _ ih => exact ih

namespace Pending

variable {ts : List Token}

/-- The index of the first token that is not part of a complete chunk, when so many were read. -/
def start (index : Nat) : Pending → Nat
  | .none => index
  | .tag mark => mark.index
  | .key _ i => i
  | .string s => s.first

/-- A pending chunk that was read from the tokens before an index. -/
inductive Placed (ts : List Token) (index : Nat) : Pending → Prop
  | none : Placed ts index .none
  | tag {mark : Tag} (htag : mark.Placed ts) (hlt : mark.index < index) :
      Placed ts index (.tag mark)
  | key {t : Token} {i : Nat} (ht : ts[i]? = some t) (hkind : t.kind = .key) (hlt : i < index) :
      Placed ts index (.key t i)
  | string {s : OpenString} (hspans : Spans ts s.range ⟨s.first, s.last + 1⟩)
      (hopening : ts[s.first]?.map (·.kind) = some (.quote .opening))
      (hinside : ∀ i t, s.first < i → i < index → ts[i]? = some t → Builder.keepsString t = true)
      (hlast : s.last + 1 = index) : Placed ts index (.string s)

/-- What is pending is still placed later on. -/
theorem Placed.mono {i j : Nat} {p : Pending} (h : p.Placed ts i) (hle : i ≤ j)
    (hstring : ∀ s, p ≠ .string s) : p.Placed ts j := by
  cases h with
  | none => exact .none
  | tag htag hlt => exact .tag htag (hlt.trans_le hle)
  | key ht hkind hlt => exact .key ht hkind (hlt.trans_le hle)
  | string => exact absurd rfl (hstring _)

/-- A string that goes on spans one token more. -/
theorem Placed.spans_extend {i : Nat} {s : OpenString} {t : Token} (hts : InOrder ts)
    (h : Placed ts i (.string s)) (ht : ts[i]? = some t) (text : String) :
    Spans ts (s.extend text t i).range ⟨s.first, i + 1⟩ := by
  cases h with
  | string hspans _ _ hlast =>
    exact hspans.combine hts (.single ht) (hlast ▸ hspans.lt.le) (hlast.le.trans (Nat.le_succ i))

/-- A string with one more token. -/
theorem Placed.extend {i : Nat} {s : OpenString} {t : Token} (hts : InOrder ts)
    (h : Placed ts i (.string s)) (ht : ts[i]? = some t) (hkeeps : Builder.keepsString t = true)
    (text : String) : Placed ts (i + 1) (.string (s.extend text t i)) := by
  have hspans := h.spans_extend hts ht text
  cases h with
  | string _ hopening hinside _ =>
    refine .string hspans hopening (fun j u hj hlt hu => ?_) rfl
    rcases Nat.lt_succ_iff_lt_or_eq.1 hlt with hlt | rfl
    · exact hinside j u hj hlt hu
    · rwa [← Option.some.inj (ht.symm.trans hu)]

theorem start_mono {i j : Nat} (p : Pending) (hle : i ≤ j) : p.start i ≤ p.start j := by
  cases p with
  | none => exact hle
  | _ => exact Nat.le_refl _

end Pending

namespace Builder

/-- All that a builder holds was read from the tokens before an index, and each open block is behind
what was complete when it was opened. -/
structure Laid (ts : List Token) (index : Nat) (b : Builder) : Prop where
  stack : Stack ts b.top (b.pending.start index) b.frames
  pending : b.pending.Placed ts index

/-- A chunk behind all others. -/
theorem stack_push {ts : List Token} {b : Builder} {hi j : Nat}
    (h : Stack ts b.top hi b.frames) {c : Chunk} (hc : c.Placed ts)
    (hstart : hi ≤ c.tokens.start) (hstop : c.tokens.stop ≤ j) :
    Stack ts (b.push c).top j (b.push c).frames := by
  unfold push
  split
  next hframes =>
    rw [hframes] at h
    cases h with
    | nil htop => simpa [hframes] using .nil (htop.concat hc (Nat.zero_le _) hstart hstop)
  next f fs hframes =>
    rw [hframes] at h
    cases h with
    | cons hframe hlt hchildren houter =>
      have hbehind : f.index + 1 ≤ c.tokens.start := Nat.succ_le_of_lt (hlt.trans_le hstart)
      have hafter : c.tokens.start < c.tokens.stop := hc.spans.lt
      exact .cons ⟨hframe.bracket, hframe.kind, hframe.tag⟩ (by dsimp only; omega)
        (hchildren.concat hc hbehind hstart hstop) houter

namespace Laid

variable {ts : List Token} {i : Nat} {b : Builder} {t : Token} {c : Chunk}

/-- Only chunks, blocks and what is pending matter. -/
theorem of_eq {b' : Builder} (h : Laid ts i b) (htop : b'.top = b.top)
    (hframes : b'.frames = b.frames) (hpending : b'.pending = b.pending) : Laid ts i b' :=
  ⟨by rw [htop, hframes, hpending]; exact h.stack, by rw [hpending]; exact h.pending⟩

theorem of_none (hpending : b.pending = .none) (hstack : Stack ts b.top i b.frames) : Laid ts i b :=
  ⟨by rwa [hpending], by rw [hpending]; exact .none⟩

/-- A token that adds nothing. -/
theorem skip (h : Laid ts i b) (hstring : ∀ s, b.pending ≠ .string s) : Laid ts (i + 1) b :=
  ⟨h.stack.mono (b.pending.start_mono (Nat.le_succ i)), h.pending.mono (Nat.le_succ i) hstring⟩

/-- A chunk of one token that is read when nothing is pending. -/
theorem push_single (h : Laid ts i b) (hpending : b.pending = .none) (hc : c.Placed ts)
    (htokens : c.tokens = .single i) : Laid ts (i + 1) (b.push c) := by
  have hstack := h.stack
  rw [hpending] at hstack
  refine of_none ((pending_push b c).trans hpending) (stack_push hstack hc ?_ ?_)
  · rw [htokens]
    exact Nat.le_refl i
  · rw [htokens]
    exact Nat.le_refl (i + 1)

/-- A chunk that takes the place of what is pending. -/
theorem complete (h : Laid ts i b) (hc : c.Placed ts) {j : Nat}
    (hstart : c.tokens.start = b.pending.start i) (hstop : c.tokens.stop ≤ j) (weak : Bool) :
    Laid ts j (b.complete c weak) :=
  ⟨stack_push h.stack hc hstart.ge hstop, .none⟩

/-- A closing bracket of the kind of the innermost block. -/
theorem pop (hts : InOrder ts) (h : Laid ts i b) (hpending : b.pending = .none) {f : Frame}
    {fs : List Frame} (hframes : b.frames = f :: fs) (ht : ts[i]? = some t)
    (hkind : t.kind = .bracket f.kind .closing) : Laid ts (i + 1) (b.pop t i) := by
  have hstack := h.stack
  rw [hpending, hframes] at hstack
  have hpop : b.pop t i = Builder.push { b with frames := fs } (f.chunk t i) := by
    simp [Builder.pop, hframes]
  rw [hpop]
  cases hstack with
  | cons hframe hlt hchildren houter =>
    have hchunk := hframe.chunk hts ht hkind hlt hchildren
    have htokens := f.tokens_chunk t i
    refine of_none ((pending_push _ _).trans hpending) (stack_push houter hchunk ?_ ?_)
    · rw [htokens]
    · rw [htokens]

/-- A token that is read when nothing is pending. -/
theorem read (hts : InOrder ts) (h : Laid ts b.index b) (hpending : b.pending = .none)
    (ht : ts[b.index]? = some t) (hmatch : b.outline.mismatches t = 0) :
    Laid ts (b.index + 1) (b.read t) := by
  have hstack := h.stack
  rw [hpending] at hstack
  have hskip : Laid ts (b.index + 1) b := h.skip fun s hs => by simp [hpending] at hs
  have hinvalid : Laid ts (b.index + 1) (b.invalid t) := hskip.of_eq rfl rfl rfl
  have hseparator : ∀ weak, Laid ts (b.index + 1)
      (b.push (.separator weak t.range (.single b.index))) :=
    fun weak => h.push_single hpending (.separator ht) rfl
  unfold Builder.read
  split
  next => exact hskip
  next => exact hinvalid
  next =>
    split
    · exact (hseparator true).of_eq rfl rfl rfl
    · exact hskip
  next => exact (hseparator false).of_eq rfl rfl rfl
  next => exact hinvalid
  next l hkind =>
    dsimp only
    rw [foldl_report]
    have hreported : Laid ts b.index { b with diagnostics := b.diagnostics ++ (l.read t).2 } :=
      h.of_eq rfl rfl rfl
    exact (hreported.push_single hpending (.literal ht hkind) rfl).of_eq rfl rfl rfl
  next hkind => exact ⟨hstack, .key ht hkind (Nat.lt_succ_self _)⟩
  next hkind =>
    refine ⟨hstack, .string (.single ht) (by simp [ht, hkind]) (fun j u hj hlt => ?_) rfl⟩
    exact absurd hj (Nat.not_lt.2 (Nat.le_of_lt_succ hlt))
  next => exact hinvalid
  next => exact hinvalid
  next hkind => exact ⟨hstack, .tag ⟨ht, hkind⟩ (Nat.lt_succ_self _)⟩
  next kind hkind =>
    simp only [hpending]
    exact ⟨.cons ⟨ht, hkind, by simp⟩ (Nat.lt_succ_self _) .nil hstack, .none⟩
  next kind hkind =>
    unfold Builder.close
    split
    next => exact hinvalid
    next f fs hframes =>
      have hopen : f.kind = kind := by
        by_contra hne
        simp [Outline.mismatches, hkind, outline, Outline.ofFrames, hframes, hne] at hmatch
      simp only [hopen, if_true]
      exact (h.pop hts hpending hframes ht (hopen ▸ hkind)).of_eq rfl rfl rfl

/-- A token that is read once a chunk has taken the place of what was pending. -/
theorem read_complete (hts : InOrder ts) (h : Laid ts b.index b) (hc : c.Placed ts)
    (hstart : c.tokens.start = b.pending.start b.index) (hstop : c.tokens.stop ≤ b.index)
    (weak : Bool) (ht : ts[b.index]? = some t) (hmatch : b.outline.mismatches t = 0) :
    Laid ts (b.index + 1) ((b.complete c weak).read t) := by
  have hindex : (b.complete c weak).index = b.index := index_complete b c weak
  have houtline : (b.complete c weak).outline = b.outline := ofFrames_complete b c weak
  have hcomplete : Laid ts (b.complete c weak).index (b.complete c weak) := by
    rw [hindex]
    exact h.complete hc hstart hstop weak
  have hread := hcomplete.read hts rfl (t := t) (by rw [hindex, ht]) (by rw [houtline, hmatch])
  rwa [hindex] at hread

/-- A token that is no mismatched bracket leaves a builder laid out. -/
theorem step (hts : InOrder ts) (h : Laid ts b.index b) (ht : ts[b.index]? = some t)
    (hmatch : b.outline.mismatches t = 0)
    (hstring : b.InString → keepsString t = true ∨ t.kind = .quote .closing) :
    Laid ts (b.step t).index (b.step t) := by
  suffices hnext : Laid ts (b.index + 1) (b.readNext t) from hnext.of_eq rfl rfl rfl
  have hstack := h.stack
  have hplaced := h.pending
  have houtcome := outcome_readNext b t
  generalize b.readNext t = b' at houtcome ⊢
  cases houtcome with
  | skip hnone _ => exact h.skip hnone
  | read hpending _ => exact h.read hts hpending ht hmatch
  | invalid hpending _ => exact (h.skip (by simp [hpending])).of_eq rfl rfl rfl
  | payload hpending hkind =>
    -- the block is behind its tag, and the tag is behind all else
    rw [hpending] at hstack hplaced
    cases hplaced with
    | tag htag hlt =>
      exact ⟨.cons ⟨ht, hkind, by simp [htag, hlt]⟩ (Nat.lt_succ_self _) .nil hstack, .none⟩
  | unit hpending _ =>
    rw [hpending] at hplaced
    cases hplaced with
    | tag htag hlt =>
      exact h.read_complete hts htag.unit (by rw [hpending]; rfl) hlt true ht hmatch
  | colon hpending _ =>
    rw [hpending] at hplaced
    cases hplaced with
    | key hkey hkind hlt =>
      have hspans := (Spans.single hkey).combine hts (.single ht) hlt.le (Nat.succ_le_succ hlt.le)
      exact h.complete (.key hkey hkind hspans) (by rw [hpending]; rfl) le_rfl false
  | bareKey hpending _ _ =>
    rw [hpending] at hplaced
    cases hplaced with
    | key hkey hkind hlt =>
      exact h.read_complete hts (.key hkey hkind (.single hkey)) (by rw [hpending]; rfl) hlt false
        ht
        hmatch
  | text hpending hpart =>
    rw [hpending] at hstack hplaced
    exact ⟨hstack, hplaced.extend hts ht (keepsString_of_stringPart? hpart) _⟩
  | badText hpending hkeeps _ =>
    rw [hpending] at hstack hplaced
    exact ⟨hstack, hplaced.extend hts ht hkeeps _⟩
  | closingQuote hpending hkind =>
    rw [hpending] at hplaced
    have hspans := hplaced.spans_extend hts ht ""
    cases hplaced with
    | string _ hopening hinside _ =>
      exact h.complete (.string ⟨hspans, hopening, by simp [ht, hkind], hinside⟩)
        (by rw [hpending]; rfl) le_rfl true
  | cut hpending hkeeps hquote =>
    exact absurd (hstring ⟨_, hpending⟩) (by simp [hkeeps, hquote])

/-- Settling what is pending keeps a builder laid out. -/
theorem settle (h : Laid ts i b) (hstring : ¬b.InString) : Laid ts i b.settle := by
  have hplaced := h.pending
  unfold Builder.settle
  split
  next => exact h
  next tag hpending =>
    rw [hpending] at hplaced
    cases hplaced with
    | tag htag hlt => exact h.complete htag.unit (by rw [hpending]; rfl) hlt true
  next key j hpending =>
    rw [hpending] at hplaced
    cases hplaced with
    | key hkey hkind hlt =>
      exact h.complete (.key hkey hkind (.single hkey)) (by rw [hpending]; rfl) hlt false
  next s hpending => exact absurd ⟨s, hpending⟩ hstring

end Laid

end Builder

end Chunk

/-! ### Runs -/

/-- A run without mismatched brackets leaves a builder laid out. -/
theorem Walk.laid_run {s last : Scanner} {vs : List Visit} (h : Walk s vs last) {ts : List Token}
    (hts : InOrder ts) {b : Chunk.Builder} (hb : InStep s b)
    (hdrop : ts.drop b.index = vs.map (·.token)) (hskips : ∀ v ∈ vs, v.skips = false)
    (hlaid : b.Laid ts b.index) :
    (b.run (vs.map (·.token))).Laid ts (b.run (vs.map (·.token))).index := by
  induction h generalizing b with
  | nil => exact hlaid
  | @cons s next last t vs hmoves hwalk ih =>
    have ht : ts[b.index]? = some t := by
      rw [← head?_drop, hdrop]
      rfl
    have hrest : ts.drop (b.step t).index = vs.map (·.token) := by
      have htail := congrArg List.tail hdrop
      rwa [tail_drop] at htail
    have hmatch : b.outline.mismatches t = 0 := by
      rw [hb.mismatches_eq hmoves, hskips _ mem_cons_self]
      rfl
    exact ih (hb.step hmoves) hrest (fun v hv => hskips v (mem_cons_of_mem _ hv))
      (hlaid.step hts ht hmatch fun hin => hmoves.of_string (hb.string.1 hin))

/-- Where nothing fatal was found by the builder, every chunk is placed. -/
theorem Document.placed_of_mem_ofTokens {text : String}
    (h : (Chunk.ofTokens (tokensOf text)).2.canContinue = true) :
    ∀ c ∈ (Chunk.ofTokens (tokensOf text)).1, c.Placed (tokensOf text) := by
  have hfatal := (canContinue_ofTokens text).not.1 (by simp [h])
  obtain ⟨hopen, hskips⟩ := not_or.1 hfatal
  obtain ⟨hblocks, hmode⟩ := not_or.1 hopen
  rw [not_not] at hblocks
  have hwalk := walk_visits text
  have hstep := hwalk.inStep .start
  have hlaid := hwalk.laid_run (inOrder_tokensOf text) .start (map_token_visits text).symm
    (fun v hv => by simpa using fun hskip => hskips ⟨v, hv, hskip⟩)
    (.of_none rfl (.nil .nil))
  rw [map_token_visits] at hstep hlaid
  have hsettle := hlaid.settle (hstep.not_inString hmode)
  rw [← Chunk.Builder.finish_eq_settle _ (hstep.frames_eq_nil_iff.2 hblocks)] at hsettle
  exact hsettle.stack.placed_of_mem_top

end TypedNotation
