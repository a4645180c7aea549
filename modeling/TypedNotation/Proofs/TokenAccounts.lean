import TypedNotation.Proofs.ChunkPlaces

/-!
# Every token is accounted for

A builder is given any list of tokens, not only what the grammar finds in a text. No token with a
meaning is lost: it is part of a key, a value or a separator, it is the tag of an enum value or a
bracket of a block, or it is reported. The one exception is a string that is still open when the
tokens end, and that is reported as fatal (`Chunk.every_token_is_accounted_for`). The builder gives
up only where it would have to close more blocks than can be counted.

`Chunk.Origin` says how a chunk is made from tokens, `Chunk.Accounts` which tokens it stands for.
While a builder reads, a token may also be held by an open block or by what is pending
(`Builder.Holds`). A builder is *traced* (`Builder.Traced`) when all that it has comes from the
tokens read, it holds each of them that has a meaning, and the chunks without parts lie one behind
the other. A token keeps this (`Traced.step`), so a run does.
-/

namespace TypedNotation

open List TokenRange

namespace TokenRange.Row

theorem single {n : TokenRange} (h : n.start < n.stop) : Row n.start n.stop [n] :=
  ⟨by simp [h], pairwise_singleton _ _⟩

/-- A row fits into wider bounds. -/
theorem widen {lo lo' hi hi' : Nat} {ns : List TokenRange} (h : Row lo hi ns) (hlo : lo' ≤ lo)
    (hhi : hi ≤ hi') : Row lo' hi' ns :=
  ⟨fun n hn => ⟨hlo.trans (h.within n hn).1, (h.within n hn).2.1, (h.within n hn).2.2.trans hhi⟩,
    h.ordered⟩

/-- Two rows, one behind the other. -/
theorem append {lo mid hi : Nat} {ms ns : List TokenRange} (hms : Row lo mid ms)
    (hns : Row mid hi ns) (hlo : lo ≤ mid) (hhi : mid ≤ hi) : Row lo hi (ms ++ ns) := by
  refine ⟨forall_mem_append.2 ⟨(hms.widen le_rfl hhi).within, (hns.widen hlo le_rfl).within⟩,
    pairwise_append.2 ⟨hms.ordered, hns.ordered, fun m hm n hn => ?_⟩⟩
  exact (hms.within m hm).2.2.trans (hns.within n hn).1

end TokenRange.Row

namespace Chunk

/-! ### Nodes and leaves -/

mutual

/-- The nodes of a chunk do not depend on where depth starts. -/
theorem map_snd_preorder (d e : Nat) : ∀ c : Chunk,
    (c.preorder d).map (·.2) = (c.preorder e).map (·.2)
  | .block b | .enum _ _ (some b) _ _ => by
    simp [preorder, map_snd_preorderBlock (d + 1) (e + 1) b]
  | .enum _ _ none _ _ | .key .. | .value .. | .separator .. => rfl

theorem map_snd_preorderBlock (d e : Nat) : ∀ b : Bracketed Chunk,
    (preorderBlock d b).map (·.2) = (preorderBlock e b).map (·.2)
  | ⟨_, children, _, _⟩ => map_snd_preorderList d e children

theorem map_snd_preorderList (d e : Nat) : ∀ cs : List Chunk,
    (preorderList d cs).map (·.2) = (preorderList e cs).map (·.2)
  | [] => rfl
  | c :: cs => by
    simp [preorderList, map_snd_preorder d e c, map_snd_preorderList d e cs]

end

/-- Chunks and every chunk inside them, parents before children. -/
def nodes (cs : List Chunk) : List Chunk :=
  (preorderList 0 cs).map (·.2)

@[simp] theorem nodes_nil : nodes [] = [] := rfl

/-- The nodes of a list: a chunk, what is inside it, and the others. -/
theorem nodes_cons (c : Chunk) (cs : List Chunk) :
    nodes (c :: cs) = c :: (nodes c.children ++ nodes cs) := by
  have hpreorder : (c.preorder 0).map (·.2) = c :: nodes c.children := by
    -- the children are listed one level deeper, which the chunks do not show
    have hlist := map_snd_preorderList 1 0
    rcases c with ⟨⟨_, children, _, _⟩⟩ | ⟨_, _, _ | ⟨_, children, _, _⟩, _, _⟩ | _ | _ | _
    · simp [preorder, preorderBlock, Chunk.children, nodes, hlist]
    · simp [preorder, Chunk.children]
    · simp [preorder, preorderBlock, Chunk.children, nodes, hlist]
    all_goals simp [preorder, Chunk.children]
  rw [nodes, preorderList, map_append, hpreorder, cons_append]
  rfl

@[simp] theorem nodes_append (cs ds : List Chunk) : nodes (cs ++ ds) = nodes cs ++ nodes ds := by
  induction cs with
  | nil => rfl
  | cons c cs ih => simp [nodes_cons, ih]

/-- The chunks without parts, in their order. -/
def leaves (cs : List Chunk) : List Chunk :=
  (nodes cs).filter fun c => c.children.isEmpty

@[simp] theorem leaves_append (cs ds : List Chunk) :
    leaves (cs ++ ds) = leaves cs ++ leaves ds := by
  simp [leaves]

/-- A chunk without parts is its own leaf. -/
theorem leaves_singleton_of_nil {c : Chunk} (h : c.children = []) : leaves [c] = [c] := by
  simp [leaves, nodes_cons, h]

/-- A chunk with parts has the leaves of its parts. -/
theorem leaves_singleton_of_ne_nil {c : Chunk} (h : c.children ≠ []) :
    leaves [c] = leaves c.children := by
  simp [leaves, nodes_cons, h]

/-- The block of a chunk: the chunk itself or the payload of an enum value. -/
def block? : Chunk → Option (Bracketed Chunk)
  | block b => some b
  | enum _ _ payload _ _ => payload
  | key .. | value .. | separator .. => none

theorem Frame.children_chunk (f : Frame) (t : Token) (i : Nat) :
    (f.chunk t i).children = f.children := by
  obtain ⟨kind, bracket, index, _ | tag, children⟩ := f <;> rfl

/-- A frame makes a block from its first token to the closing one. -/
theorem Frame.exists_block?_chunk (f : Frame) (t : Token) (i : Nat) :
    ∃ b, (f.chunk t i).block? = some b ∧ b.kind = f.kind ∧ b.tokens = ⟨f.index, i + 1⟩ := by
  obtain ⟨kind, bracket, index, _ | tag, children⟩ := f <;> exact ⟨_, rfl, rfl, rfl⟩

/-! ### Where chunks come from -/

/-- A string that was read from an opening quote on. -/
inductive OpenString.Runs (ts : List Token) : OpenString → Prop
  | start {i : Nat} {t : Token} (ht : ts[i]? = some t) (hkind : t.kind = .quote .opening) :
      Runs ts ⟨i, i, t.range, ""⟩
  | extend {s : OpenString} {t : Token} (text : String) (hs : Runs ts s)
      (ht : ts[s.last + 1]? = some t) (hkeeps : Builder.keepsString t = true) :
      Runs ts (s.extend text t (s.last + 1))

/-- A chunk was made from tokens, whatever is inside of it. -/
inductive Origin (ts : List Token) : Chunk → Prop
  | literal {i : Nat} {t : Token} {l : Literal} (ht : ts[i]? = some t)
      (hkind : t.kind = .literal l) : Origin ts (.value (l.read t).1 t.range (.single i))
  /-- A string that is cut off. -/
  | unterminated {s : OpenString} (hs : s.Runs ts) : Origin ts s.chunk
  | quoted {s : OpenString} {t : Token} (hs : s.Runs ts) (ht : ts[s.last + 1]? = some t)
      (hkind : t.kind = .quote .closing) : Origin ts (s.extend "" t (s.last + 1)).chunk
  | newline {i : Nat} {t : Token} (ht : ts[i]? = some t) (hkind : t.kind = .newline) :
      Origin ts (.separator true t.range (.single i))
  | comma {i : Nat} {t : Token} (ht : ts[i]? = some t) (hkind : t.kind = .comma) :
      Origin ts (.separator false t.range (.single i))
  | bareKey {i : Nat} {t : Token} (ht : ts[i]? = some t) (hkind : t.kind = .key) :
      Origin ts (Builder.bareKey t i)
  | keyWithColon {i j : Nat} {t colon : Token} (ht : ts[i]? = some t) (hkind : t.kind = .key)
      (hlt : i < j) (hcolon : ts[j]? = some colon) (hcolonKind : colon.kind = .colon) :
      Origin ts (Builder.keyWithColon t i colon j)
  | unit {tag : Tag} (htag : tag.Placed ts) : Origin ts tag.unit
  /-- A block, be it closed by its own bracket or not. -/
  | frame {f : Frame} {t : Token} {i : Nat} (hf : f.Placed ts) (ht : ts[i]? = some t) :
      Origin ts (f.chunk t i)

/-- The chunks without parts in a block lie between its ends, one behind the other. -/
theorem Frame.row_chunk (f : Frame) {j : Nat} (hstart : f.start ≤ f.index) (hlt : f.index < j + 1)
    (hchildren : Row (f.index + 1) (j + 1) ((leaves f.children).map tokens))
    (t : Token) : Row f.start (j + 1) ((leaves [f.chunk t j]).map tokens) := by
  by_cases hempty : f.children = []
  · have hleaf : (f.chunk t j).children = [] := by rw [f.children_chunk, hempty]
    rw [leaves_singleton_of_nil hleaf, map_singleton, f.tokens_chunk]
    exact .single (n := ⟨f.start, j + 1⟩) (hstart.trans_lt hlt)
  · have hnode : (f.chunk t j).children ≠ [] := by rwa [f.children_chunk]
    rw [leaves_singleton_of_ne_nil hnode, f.children_chunk]
    exact hchildren.widen (hstart.trans (Nat.le_succ _)) le_rfl

/-- What a chunk accounts for: the tokens of a key, a value or a separator, the tag of an enum
value, and the brackets of a block. -/
inductive Accounts (ts : List Token) (i : Nat) : Chunk → Prop
  | key {name : String} {nameRange r : Range} {n : TokenRange} (hstart : n.start ≤ i)
      (hstop : i < n.stop) : Accounts ts i (.key name nameRange r n)
  | value {s : Scalar} {r : Range} {n : TokenRange} (hstart : n.start ≤ i) (hstop : i < n.stop) :
      Accounts ts i (.value s r n)
  | separator {weak : Bool} {r : Range} {n : TokenRange} (hstart : n.start ≤ i)
      (hstop : i < n.stop) :
      Accounts ts i (.separator weak r n)
  | tag {t : Token} {payload : Option (Bracketed Chunk)} {r : Range} {n : TokenRange}
      (ht : ts[i]? = some t) (hkind : t.kind = .tag) (hstart : n.start = i) :
      Accounts ts i (.enum t.tagName t.range payload r n)
  | opening {c : Chunk} {b : Bracketed Chunk} {t : Token} (hb : c.block? = some b)
      (ht : ts[i]? = some t) (hkind : t.kind = .bracket b.kind .opening)
        (hstart : b.tokens.start = i) :
      Accounts ts i c
  /-- The bracket that ended the block, which may be of another kind. -/
  | closing {c : Chunk} {b : Bracketed Chunk} {t : Token} {kind : BlockKind}
      (hb : c.block? = some b)
      (ht : ts[i]? = some t) (hkind : t.kind = .bracket kind .closing)
      (hstop : b.tokens.stop = i + 1) : Accounts ts i c

/-- A token is reported as standing for nothing. -/
def IsReported (ds : List Diagnostic) (t : Token) : Prop :=
  ∃ d ∈ ds, d.kind = .invalidToken ∧ d.range = t.range

/-- A string that reaches a token is still open when the tokens end. -/
def RunsOut (ts : List Token) (i : Nat) : Prop :=
  ∃ first ≤ i, ts[first]?.map (·.kind) = some (.quote .opening) ∧
    ∀ j t, first < j → ts[j]? = some t → Builder.keepsString t = true

/-- It is reported that the tokens end too early. -/
def IsCutShort (ds : List Diagnostic) : Prop :=
  ∃ d ∈ ds, d.kind = .unexpectedEndOfInput ∧ d.fatal = true

namespace Pending

/-- The tokens that what is pending holds. -/
def Covers (i : Nat) : Pending → Prop
  | .none => False
  | .tag mark => mark.index = i
  | .key _ j => j = i
  | .string s => s.first ≤ i ∧ i ≤ s.last

/-- What is pending was read from the tokens before an index. -/
inductive Traced (ts : List Token) (index : Nat) : Pending → Prop
  | none : Traced ts index .none
  | tag {mark : Tag} (htag : mark.Placed ts) (hlt : mark.index < index) :
      Traced ts index (.tag mark)
  | key {t : Token} {i : Nat} (ht : ts[i]? = some t) (hkind : t.kind = .key) (hlt : i < index) :
      Traced ts index (.key t i)
  | string {s : OpenString} (hs : s.Runs ts) (hlast : s.last + 1 = index) :
      Traced ts index (.string s)

end Pending

/-- The tokens that an open block holds: its bracket and its tag. -/
def Frame.Covers (i : Nat) (f : Frame) : Prop :=
  f.index = i ∨ ∃ tag ∈ f.tag, tag.index = i

/-- Open blocks, innermost first, and the chunks outside of them. The chunks without parts lie
before an index, one behind the other, and what is outside of a block lies before that block. -/
inductive Rows (top : List Chunk) : Nat → List Frame → Prop
  | nil {hi : Nat} (htop : Row 0 hi ((leaves top).map tokens)) : Rows top hi []
  | cons {hi : Nat} {f : Frame} {fs : List Frame} (hstart : f.start ≤ f.index) (hlt : f.index < hi)
      (hchildren : Row (f.index + 1) hi ((leaves f.children).map tokens))
      (houter : Rows top f.start fs) : Rows top hi (f :: fs)

/-- Rows end before any later token. -/
theorem Rows.mono {top : List Chunk} {hi hi' : Nat} {fs : List Frame} (h : Rows top hi fs)
    (hle : hi ≤ hi') : Rows top hi' fs := by
  cases h with
  | nil htop => exact .nil (htop.mono hle)
  | cons hstart hlt hchildren houter =>
    exact .cons hstart (hlt.trans_le hle) (hchildren.mono hle) houter

namespace Builder

/-- A chunk is among those that a builder has put together, at any depth. -/
def Has (b : Builder) (c : Chunk) : Prop :=
  c ∈ nodes b.top ∨ ∃ f ∈ b.frames, c ∈ nodes f.children

/-- A token is accounted for by a chunk, reported, lost to a string that ran out, or held by what is
not complete. -/
inductive Holds (ts : List Token) (b : Builder) (i : Nat) (t : Token) : Prop
  | node {c : Chunk} (hc : b.Has c) (haccounts : c.Accounts ts i)
  | reported (hreported : IsReported b.diagnostics t)
  | ranOut (hout : RunsOut ts i) (hshort : IsCutShort b.diagnostics)
  | frame {f : Frame} (hf : f ∈ b.frames) (hcovers : f.Covers i)
  | pending (hcovers : b.pending.Covers i)

/-- All that a builder has comes from the tokens before an index, and each of these tokens that has
a meaning is held. -/
structure Traced (ts : List Token) (index : Nat) (b : Builder) : Prop where
  origin : ∀ c, b.Has c → c.Origin ts
  frames : ∀ f ∈ b.frames, f.Placed ts
  pending : b.pending.Traced ts index
  rows : Rows b.top (b.pending.start index) b.frames
  holds : ∀ i t, i < index → ts[i]? = some t → t.kind ≠ .ignored → t.kind ≠ .newline →
    b.Holds ts i t

/-- A builder has one chunk more, with all that is inside it. -/
theorem has_push {b : Builder} {c d : Chunk} :
    (b.push c).Has d ↔ b.Has d ∨ d = c ∨ d ∈ nodes c.children := by
  unfold push
  split
  next hframes => simp [Has, hframes, nodes_cons]
  next f fs hframes =>
    simp only [Has, hframes, mem_cons, exists_eq_or_imp, nodes_append, nodes_cons, nodes_nil,
      append_nil, mem_append]
    simp only [or_assoc, or_comm, or_left_comm]

/-- Closing a block makes a chunk of it and loses none. -/
theorem has_pop {b : Builder} {f : Frame} {fs : List Frame} (hframes : b.frames = f :: fs)
    (t : Token) (i : Nat) (d : Chunk) : (b.pop t i).Has d ↔ b.Has d ∨ d = f.chunk t i := by
  have hpop : b.pop t i = push { b with frames := fs } (f.chunk t i) := by simp [pop, hframes]
  rw [hpop, has_push, f.children_chunk]
  simp only [Has, hframes, mem_cons, exists_eq_or_imp, or_assoc, or_comm, or_left_comm]

namespace Holds

variable {ts : List Token} {b : Builder} {i : Nat} {t : Token}

/-- A token stays held when a chunk is added. -/
theorem push (h : Holds ts b i t) (c : Chunk) : Holds ts (b.push c) i t := by
  cases h with
  | node hc haccounts => exact .node (has_push.2 (.inl hc)) haccounts
  | reported hreported => exact .reported (by rwa [diagnostics_push])
  | ranOut hout hshort => exact .ranOut hout (by rwa [diagnostics_push])
  | pending hcovers => exact .pending (by rwa [pending_push])
  | @frame f hf hcovers =>
    cases hframes : b.frames with
    | nil => simp [hframes] at hf
    | cons g gs =>
      rw [hframes] at hf
      rcases mem_cons.1 hf with rfl | hf
      · exact .frame (f := { f with children := f.children ++ [c] })
          (by simp [Builder.push, hframes]) hcovers
      · exact .frame (f := f) (by simp [Builder.push, hframes, hf]) hcovers

/-- A chunk in the place of what is pending. -/
theorem complete (h : Holds ts b i t) {c : Chunk} (hc : b.pending.Covers i → c.Accounts ts i)
    (weak : Bool) : Holds ts (b.complete c weak) i t := by
  by_cases hcovers : b.pending.Covers i
  · exact .node (b := b.complete c weak) (has_push.2 (.inr (.inl rfl))) (hc hcovers)
  · cases h.push c with
    | node hd haccounts => exact .node (b := b.complete c weak) hd haccounts
    | reported hreported => exact .reported hreported
    | ranOut hout hshort => exact .ranOut hout hshort
    | frame hf hheld => exact .frame (b := b.complete c weak) hf hheld
    | pending hheld => exact absurd (by rwa [pending_push] at hheld) hcovers

end Holds

end Builder

/-- A frame accounts for the same tokens when it is closed. -/
theorem Frame.Placed.accounts {ts : List Token} {f : Frame} {i : Nat} (hf : f.Placed ts)
    (hcovers : f.Covers i) (t : Token) (j : Nat) : (f.chunk t j).Accounts ts i := by
  rcases hcovers with rfl | ⟨tag, htag, rfl⟩
  · obtain ⟨b, hb, hkind, htokens⟩ := f.exists_block?_chunk t j
    exact .opening hb hf.bracket (by rw [hf.kind, hkind]) (by rw [htokens])
  · obtain ⟨⟨hmark, hmarkKind⟩, -⟩ := hf.tag tag htag
    obtain ⟨kind, bracket, index, _, children⟩ := f
    cases htag
    exact .tag hmark hmarkKind rfl

/-- A token stays held when a block is closed. -/
theorem Builder.Holds.pop {ts : List Token} {b : Builder} {i : Nat} {t : Token}
    (h : Holds ts b i t) {f : Frame} {fs : List Frame} (hframes : b.frames = f :: fs)
    (hf : f.Placed ts) (closing : Token) (j : Nat) : Holds ts (b.pop closing j) i t := by
  have hpop : b.pop closing j = Builder.push { b with frames := fs } (f.chunk closing j) := by
    simp [Builder.pop, hframes]
  cases h with
  | node hc haccounts => exact .node ((has_pop hframes closing j _).2 (.inl hc)) haccounts
  | reported hreported => exact .reported (by rwa [diagnostics_pop])
  | ranOut hout hshort => exact .ranOut hout (by rwa [diagnostics_pop])
  | pending hcovers => exact .pending (by rwa [pending_pop])
  | frame hg hcovers =>
    rw [hframes] at hg
    rcases mem_cons.1 hg with rfl | hg
    · exact .node ((has_pop hframes closing j _).2 (.inr rfl)) (hf.accounts hcovers closing j)
    · rw [hpop]
      exact Holds.push (.frame (b := { b with frames := fs }) hg hcovers) _

/-! ### Chunks without parts -/

namespace OpenString.Runs

variable {ts : List Token} {s : OpenString}

/-- A string ends no earlier than it starts. -/
theorem first_le_last (h : s.Runs ts) : s.first ≤ s.last := by
  induction h with
  | start => exact Nat.le_refl _
  | extend _ _ _ _ ih => exact ih.trans (Nat.le_succ _)

/-- A string starts with an opening quote. -/
theorem opening (h : s.Runs ts) : ts[s.first]?.map (·.kind) = some (.quote .opening) := by
  induction h with
  | start ht hkind => simp [ht, hkind]
  | extend _ _ _ _ ih => exact ih

/-- All tokens behind the quote keep the string open. -/
theorem keepsString_of_le (h : s.Runs ts) {i : Nat} {t : Token} (hfirst : s.first < i)
    (hlast : i ≤ s.last) (ht : ts[i]? = some t) : Builder.keepsString t = true := by
  induction h with
  | start => exact absurd hfirst (Nat.not_lt.2 hlast)
  | extend text hs hnext hkeeps ih =>
    rcases Nat.le_succ_iff.1 hlast with hle | rfl
    · exact ih hfirst hle
    · rwa [← Option.some.inj (hnext.symm.trans ht)]

end OpenString.Runs

/-- A chunk without parts that accounts for all of its tokens. -/
structure Atom (ts : List Token) (c : Chunk) : Prop where
  origin : c.Origin ts
  children : c.children = []
  lt : c.tokens.start < c.tokens.stop
  accounts : ∀ i, c.tokens.start ≤ i → i < c.tokens.stop → c.Accounts ts i

namespace Atom

variable {ts : List Token}

theorem value {s : Scalar} {r : Range} {n : TokenRange} (h : Origin ts (.value s r n))
    (hlt : n.start < n.stop) : Atom ts (.value s r n) :=
  ⟨h, rfl, hlt, fun _ => .value⟩

theorem separator {weak : Bool} {r : Range} {i : Nat}
    (h : Origin ts (.separator weak r (.single i))) : Atom ts (.separator weak r (.single i)) :=
  ⟨h, rfl, Nat.lt_succ_self i, fun _ => .separator⟩

theorem key {name : String} {nameRange r : Range} {n : TokenRange}
    (h : Origin ts (.key name nameRange r n)) (hlt : n.start < n.stop) :
    Atom ts (.key name nameRange r n) :=
  ⟨h, rfl, hlt, fun _ => .key⟩

theorem unit {tag : Tag} (h : tag.Placed ts) : Atom ts tag.unit := by
  refine ⟨.unit h, rfl, Nat.lt_succ_self _, fun i hstart hstop => ?_⟩
  obtain ⟨ht, hkind⟩ := h
  obtain rfl := Nat.le_antisymm hstart (Nat.le_of_lt_succ hstop)
  exact .tag ht hkind rfl

/-- The leaves of an atom lie inside its tokens. -/
theorem row (h : Atom ts c) :
    Row c.tokens.start c.tokens.stop ((leaves [c]).map tokens) := by
  rw [leaves_singleton_of_nil h.children]
  exact .single h.lt

end Atom

/-! ### Traced builders -/

namespace Pending

variable {ts : List Token} {p : Pending} {i : Nat}

/-- What is pending is still traced one token later. -/
theorem Traced.mono (h : p.Traced ts i) (hstring : ∀ s, p ≠ .string s) : p.Traced ts (i + 1) := by
  cases h with
  | none => exact .none
  | tag htag hlt => exact .tag htag (hlt.trans (Nat.lt_succ_self i))
  | key ht hkind hlt => exact .key ht hkind (hlt.trans (Nat.lt_succ_self i))
  | string => exact absurd rfl (hstring _)

/-- What is pending starts at a token that was read. -/
theorem Traced.start_le (h : p.Traced ts i) : p.start i ≤ i := by
  cases h with
  | none => exact Nat.le_refl i
  | tag _ hlt => exact hlt.le
  | key _ _ hlt => exact hlt.le
  | string hs hlast => exact hlast ▸ hs.first_le_last.trans (Nat.le_succ _)

theorem start_le_of_covers {k : Nat} (h : p.Covers k) : p.start i ≤ k := by
  cases p with
  | none => exact h.elim
  | tag => exact h.le
  | key => exact h.le
  | string => exact h.1

end Pending

namespace Builder

/-- Chunks behind all others. -/
theorem rows_push {b : Builder} {hi j : Nat} (h : Rows b.top hi b.frames) {c : Chunk} {lo : Nat}
    (hc : Row lo j ((leaves [c]).map tokens)) (hlo : hi ≤ lo) (hle : lo ≤ j) :
    Rows (b.push c).top j (b.push c).frames := by
  have hrow := hc.widen hlo le_rfl
  have hhi : hi ≤ j := hlo.trans hle
  unfold push
  split
  next hframes =>
    rw [hframes] at h
    cases h with
    | nil htop =>
      have := htop.append hrow (Nat.zero_le hi) hhi
      rw [← map_append, ← leaves_append] at this
      simpa [hframes] using Rows.nil this
  next f fs hframes =>
    rw [hframes] at h
    cases h with
    | cons hstart hlt hchildren houter =>
      have := hchildren.append hrow hlt hhi
      rw [← map_append, ← leaves_append] at this
      exact .cons hstart (hlt.trans_le hhi) this houter

/-- The frames stay placed when a chunk is added. -/
theorem frame_placed_push {ts : List Token} {b : Builder} (h : ∀ f ∈ b.frames, f.Placed ts)
    (c : Chunk) : ∀ f ∈ (b.push c).frames, f.Placed ts := by
  unfold push
  split
  next hframes => exact h
  next f fs hframes =>
    rw [hframes] at h
    have hf := h f mem_cons_self
    exact forall_mem_cons.2 ⟨⟨hf.bracket, hf.kind, hf.tag⟩, (forall_mem_cons.1 h).2⟩

@[simp] theorem pending_settle (b : Builder) : b.settle.pending = .none := by
  unfold settle
  split <;> first | rfl | assumption

theorem pending_finish (b : Builder) : b.finish.pending = .none := by
  unfold finish
  dsimp only
  split
  · split <;> simp [endTooEarly, report]
  · exact b.pending_settle

/-- No block is open at the end. -/
theorem frames_finish (b : Builder) (h : b.frames ≠ [] → b.last ≠ none) : b.finish.frames = [] := by
  by_cases hframes : b.frames = []
  · rw [finish_eq_settle b hframes, frames_settle_eq_nil, hframes]
  · obtain ⟨t, ht⟩ := Option.ne_none_iff_exists'.1 (h hframes)
    have hopen : b.settle.frames.isEmpty = false := by simpa [frames_settle_eq_nil] using hframes
    have hfinish : b.finish = b.settle.endTooEarly.popMany t (b.settle.index - 1)
        b.settle.depth := by
      simp [finish, ht, hopen]
    have hdrop : Outline.ofFrames b.finish.frames = [] := by
      rw [hfinish, ofFrames_popMany]
      exact drop_eq_nil_of_le (by simp [Outline.ofFrames, depth, endTooEarly, report])
    simpa [Outline.ofFrames] using hdrop

namespace Traced

variable {ts : List Token} {i : Nat} {b : Builder} {t : Token}

/-- A builder with the same chunks, whose tokens are held as before and the new ones too. -/
theorem advance {b' : Builder} {j : Nat} (h : Traced ts i b) (htop : b'.top = b.top)
    (hframes : b'.frames = b.frames) (hdiagnostics : b.diagnostics ⊆ b'.diagnostics)
    (hpending : b'.pending.Traced ts j) (hstart : b.pending.start i ≤ b'.pending.start j)
    (hcovers : ∀ k t, b.pending.Covers k → b'.Holds ts k t)
    (hnew : ∀ k t, i ≤ k → k < j → ts[k]? = some t → t.kind ≠ .ignored → t.kind ≠ .newline →
      b'.Holds ts k t) : Traced ts j b' := by
  have hhas : ∀ c, b'.Has c ↔ b.Has c := fun c => by rw [Has, htop, hframes, Has]
  refine ⟨fun c hc => h.origin c ((hhas c).1 hc), by rw [hframes]; exact h.frames, hpending,
    by rw [htop, hframes]; exact h.rows.mono hstart, fun k u hk hu hignored hnewline => ?_⟩
  by_cases hki : k < i
  · cases h.holds k u hki hu hignored hnewline with
    | node hc haccounts => exact .node ((hhas _).2 hc) haccounts
    | reported hreported =>
      obtain ⟨d, hd, hrest⟩ := hreported
      exact .reported ⟨d, hdiagnostics hd, hrest⟩
    | ranOut hout hshort =>
      obtain ⟨d, hd, hrest⟩ := hshort
      exact .ranOut hout ⟨d, hdiagnostics hd, hrest⟩
    | frame hf hheld => exact .frame (by rwa [hframes]) hheld
    | pending hheld => exact hcovers k u hheld
  · exact hnew k u (Nat.not_lt.1 hki) hk hu hignored hnewline

/-- A builder that differs only in its findings, and has no fewer, is traced. -/
theorem of_eq {b' : Builder} (h : Traced ts i b) (htop : b'.top = b.top)
    (hframes : b'.frames = b.frames) (hpending : b'.pending = b.pending)
    (hdiagnostics : b.diagnostics ⊆ b'.diagnostics) : Traced ts i b' :=
  h.advance htop hframes hdiagnostics (hpending ▸ h.pending) (by rw [hpending])
    (fun _ _ hk => .pending (by rwa [hpending])) fun _ _ hik hki => absurd hki (Nat.not_lt.2 hik)

/-- A token that what is pending takes up. -/
theorem hold {b' : Builder} (h : Traced ts i b) (htop : b'.top = b.top)
    (hframes : b'.frames = b.frames) (hdiagnostics : b.diagnostics ⊆ b'.diagnostics)
    (hpending : b'.pending.Traced ts (i + 1))
    (hstart : b.pending.start i ≤ b'.pending.start (i + 1))
    (hcovers : ∀ k, b.pending.Covers k ∨ k = i → b'.pending.Covers k) : Traced ts (i + 1) b' :=
  h.advance htop hframes hdiagnostics hpending hstart
    (fun k _ hk => .pending (hcovers k (.inl hk))) fun k _ hik hki _ _ _ =>
      .pending (hcovers k (.inr (Nat.le_antisymm (Nat.le_of_lt_succ hki) hik)))

/-- A token that adds nothing: it has no meaning, or it is reported. -/
theorem skip (h : Traced ts i b) (hstring : ∀ s, b.pending ≠ .string s) (ht : ts[i]? = some t)
    (hheld : t.kind = .ignored ∨ t.kind = .newline ∨ IsReported b.diagnostics t) :
    Traced ts (i + 1) b := by
  refine h.advance rfl rfl (List.Subset.refl _) (h.pending.mono hstring)
    (b.pending.start_mono (Nat.le_succ i)) (fun _ _ hk => .pending hk)
    fun k u hik hki hu hignored hnewline => ?_
  obtain rfl := Nat.le_antisymm (Nat.le_of_lt_succ hki) hik
  obtain rfl := Option.some.inj (ht.symm.trans hu)
  exact .reported ((hheld.resolve_left hignored).resolve_left hnewline)

/-- An invalid token is accounted for by its report. -/
theorem invalid (h : Traced ts i b) (hstring : ∀ s, b.pending ≠ .string s) (ht : ts[i]? = some t) :
    Traced ts (i + 1) (b.invalid t) := by
  have hreported : Traced ts i (b.invalid t) :=
    h.of_eq rfl rfl rfl (subset_append_left _ _)
  exact hreported.skip hstring ht
    (.inr (.inr ⟨invalidToken t, by simp [diagnostics_invalid], rfl, rfl⟩))

/-- A chunk that takes the place of what is pending, and that accounts for any tokens read with
it. -/
theorem complete (h : Traced ts i b) {c : Chunk} (hc : c.Atom ts) {j : Nat}
    (hstart : c.tokens.start = b.pending.start i) (hstop : c.tokens.stop ≤ j)
    (hcovers : ∀ k, b.pending.Covers k ∨ i ≤ k ∧ k < j → k < c.tokens.stop) (weak : Bool) :
    Traced ts j (b.complete c weak) := by
  refine ⟨fun d hd => ?_, frame_placed_push h.frames c, .none, ?_,
    fun k u hk hu hignored hnewline => ?_⟩
  · rcases has_push.1 hd with hd | rfl | hd
    · exact h.origin d hd
    · exact hc.origin
    · simp [hc.children] at hd
  · exact rows_push h.rows (hc.row.mono hstop) hstart.ge (hc.lt.le.trans hstop)
  · -- what was pending is now accounted for by the chunk, and so are the tokens from `i` on
    by_cases hki : k < i
    · refine (h.holds k u hki hu hignored hnewline).complete (fun hheld => ?_) weak
      exact hc.accounts k (hstart ▸ Pending.start_le_of_covers hheld) (hcovers k (.inl hheld))
    · have hik : i ≤ k := Nat.not_lt.1 hki
      exact .node (b := b.complete c weak) (has_push.2 (.inr (.inl rfl)))
        (hc.accounts k (hstart ▸ h.pending.start_le.trans hik) (hcovers k (.inr ⟨hik, hk⟩)))

/-- A chunk that takes the place of what is pending, before the next token is read. -/
theorem complete_before (h : Traced ts i b) {c : Chunk} (hc : c.Atom ts)
    (hstart : c.tokens.start = b.pending.start i) (hstop : c.tokens.stop ≤ i)
    (hcovers : ∀ k, b.pending.Covers k → k < c.tokens.stop) (weak : Bool) :
    Traced ts i (b.complete c weak) := by
  refine h.complete hc hstart hstop (fun k hk => ?_) weak
  exact hk.elim (hcovers k) fun hk => absurd hk.2 (Nat.not_lt.2 hk.1)

/-- A chunk of one token that is read when nothing is pending. -/
theorem push_single (h : Traced ts i b) (hpending : b.pending = .none) {c : Chunk} (hc : c.Atom ts)
    (htokens : c.tokens = .single i) : Traced ts (i + 1) (b.push c) := by
  have hcomplete : Traced ts (i + 1) (b.complete c b.weakAllowed) :=
    h.complete hc (by rw [htokens, hpending]; rfl) (by rw [htokens]; rfl)
      (by simp [hpending, Pending.Covers, htokens, single]) _
  exact hcomplete.of_eq rfl rfl (by rw [pending_push, hpending]; rfl) (List.Subset.refl _)

/-- The innermost block ends at a token, which may be the next one. -/
theorem pop (h : Traced ts i b) (hpending : b.pending = .none) {f : Frame} {fs : List Frame}
    (hframes : b.frames = f :: fs) {j : Nat} (ht : ts[j]? = some t)
    (hheld : i = j + 1 ∨ i = j ∧ ∃ kind, t.kind = .bracket kind .closing) :
    Traced ts (j + 1) (b.pop t j) := by
  have hij : i ≤ j + 1 := by omega
  have hpop : b.pop t j = Builder.push { b with frames := fs } (f.chunk t j) := by
    simp [Builder.pop, hframes]
  have hplaced := forall_mem_cons.1 (hframes ▸ h.frames)
  have hrows := h.rows
  rw [hpending, hframes] at hrows
  refine ⟨fun d hd => ?_, ?_, by rw [pending_pop, hpending]; exact .none, ?_,
    fun k u hk hu hignored hnewline => ?_⟩
  · rcases (has_pop hframes t j d).1 hd with hd | rfl
    · exact h.origin d hd
    · exact .frame hplaced.1 ht
  · rw [hpop]
    exact frame_placed_push (b := { b with frames := fs }) hplaced.2 _
  · rw [pending_pop, hpending, hpop]
    cases hrows with
    | cons hstart hlt hchildren houter =>
      have hlt : f.index < j + 1 := hlt.trans_le hij
      have hrow := f.row_chunk hstart hlt (hchildren.mono hij) t
      exact rows_push (b := { b with frames := fs }) houter hrow le_rfl (hstart.trans hlt.le)
  · by_cases hki : k < i
    · exact (h.holds k u hki hu hignored hnewline).pop hframes hplaced.1 t j
    · -- the token at which the block ends is the one that is new
      rcases hheld with rfl | ⟨rfl, kind, hkind⟩
      · exact absurd hk hki
      · obtain rfl : k = i := by omega
        obtain ⟨block, hblock, -, htokens⟩ := f.exists_block?_chunk t k
        exact .node ((has_pop hframes t k _).2 (.inr rfl))
          (.closing hblock ht hkind (by rw [htokens]))

/-- Closing several blocks keeps a builder traced. -/
theorem popMany (h : Traced ts (i + 1) b) (hpending : b.pending = .none) (ht : ts[i]? = some t)
    (n : Nat) : Traced ts (i + 1) (b.popMany t i n) := by
  induction n generalizing b with
  | zero => exact h
  | succ n ih =>
    rw [Builder.popMany]
    refine ih ?_ (by rw [pending_pop, hpending])
    cases hframes : b.frames with
    | nil =>
      have hpop : b.pop t i = b := by simp [Builder.pop, hframes]
      rwa [hpop]
    | cons f fs => exact h.pop hpending hframes ht (.inl rfl)

/-- A closing bracket, which may close several blocks. -/
theorem close (h : Traced ts b.index b) (hpending : b.pending = .none) (ht : ts[b.index]? = some t)
    {kind : BlockKind} (hkind : t.kind = .bracket kind .closing) :
    Traced ts (b.index + 1) (b.close t kind) := by
  unfold Builder.close
  split
  next => exact h.invalid (by simp [hpending]) ht
  next f fs hframes =>
    dsimp only
    split
    next =>
      exact (h.pop hpending hframes ht (.inr ⟨rfl, kind, hkind⟩)).of_eq rfl rfl rfl
        (List.Subset.refl _)
    next =>
      have hreport : Traced ts b.index (b.report (mismatch f.bracket t)) :=
        h.of_eq rfl rfl rfl (subset_append_left _ _)
      obtain ⟨n, hn⟩ : ∃ n, min (spanned f.bracket t) b.depth = n + 1 :=
        Nat.exists_eq_succ_of_ne_zero (by simp [spanned, depth, hframes])
      rw [hn, Builder.popMany]
      have hfirst := hreport.pop hpending hframes ht (.inr ⟨rfl, kind, hkind⟩)
      exact (hfirst.popMany (by rw [pending_pop]; exact hpending) ht n).of_eq rfl rfl rfl
        (List.Subset.refl _)

/-- An opening bracket, and a tag in front of it. -/
theorem opening (h : Traced ts b.index b) (ht : ts[b.index]? = some t) {kind : BlockKind}
    (hkind : t.kind = .bracket kind .opening) {tag : Option Tag}
    (htag : ∀ mark ∈ tag, mark.Placed ts ∧ mark.index < b.index)
    (hstart : Frame.start ⟨kind, t, b.index, tag, []⟩ = b.pending.start b.index)
    (hcovers : ∀ k, b.pending.Covers k → ∃ mark ∈ tag, mark.index = k) :
    Traced ts (b.index + 1)
      { b with
        frames := ⟨kind, t, b.index, tag, []⟩ :: b.frames
        pending := .none
        weakAllowed := false } := by
  have hrows := h.rows
  rw [← hstart] at hrows
  have hle : Frame.start ⟨kind, t, b.index, tag, []⟩ ≤ b.index := hstart ▸ h.pending.start_le
  refine ⟨fun c hc => h.origin c ?_, forall_mem_cons.2 ⟨⟨ht, hkind, htag⟩, h.frames⟩, .none,
    .cons hle (Nat.lt_succ_self _) (.nil _ _) hrows, fun k u hk hu hignored hnewline => ?_⟩
  · simpa [Has] using hc
  · rcases Nat.lt_succ_iff_lt_or_eq.1 hk with hk | rfl
    · cases h.holds k u hk hu hignored hnewline with
      | node hc haccounts => exact .node (by simpa [Has] using hc) haccounts
      | reported hreported => exact .reported hreported
      | ranOut hout hshort => exact .ranOut hout hshort
      | frame hf hheld => exact .frame (mem_cons_of_mem _ hf) hheld
      -- only a tag can be pending in front of a bracket, and the block takes it over
      | pending hheld => exact .frame mem_cons_self (.inr (hcovers k hheld))
    · exact .frame mem_cons_self (.inl rfl)

/-- A token that is read when nothing is pending. -/
theorem read (h : Traced ts b.index b) (hpending : b.pending = .none) (ht : ts[b.index]? = some t) :
    Traced ts (b.index + 1) (b.read t) := by
  have hstring : ∀ s, b.pending ≠ .string s := by simp [hpending]
  have hinvalid : Traced ts (b.index + 1) (b.invalid t) := h.invalid hstring ht
  have hstart : b.pending.start b.index ≤ b.index := h.pending.start_le
  unfold Builder.read
  split
  next hkind => exact h.skip hstring ht (.inl hkind)
  next => exact hinvalid
  next hkind =>
    split
    · exact (h.push_single hpending (.separator (.newline ht hkind)) rfl).of_eq rfl rfl rfl
        (List.Subset.refl _)
    · exact h.skip hstring ht (.inr (.inl hkind))
  next hkind =>
    exact (h.push_single hpending (.separator (.comma ht hkind)) rfl).of_eq rfl rfl rfl
      (List.Subset.refl _)
  next => exact hinvalid
  next l hkind =>
    dsimp only
    rw [foldl_report]
    have hreported : Traced ts b.index { b with diagnostics := b.diagnostics ++ (l.read t).2 } :=
      h.of_eq rfl rfl rfl (subset_append_left _ _)
    exact (hreported.push_single hpending
      (.value (.literal ht hkind) (Nat.lt_succ_self _)) rfl).of_eq
      rfl rfl rfl (List.Subset.refl _)
  next hkind =>
    exact h.hold rfl rfl (List.Subset.refl _) (.key ht hkind (Nat.lt_succ_self _)) hstart
      (by simp [hpending, Pending.Covers])
  next hkind =>
    exact h.hold rfl rfl (List.Subset.refl _) (.string (.start ht hkind) rfl) hstart
      (by simp [hpending, Pending.Covers])
  next => exact hinvalid
  next => exact hinvalid
  next hkind =>
    exact h.hold rfl rfl (List.Subset.refl _) (.tag ⟨ht, hkind⟩ (Nat.lt_succ_self _)) hstart
      (by simp [hpending, Pending.Covers])
  next kind hkind =>
    simp only [hpending]
    exact h.opening ht hkind (by simp) (by simp [hpending, Frame.start, Pending.start])
      (by simp [hpending, Pending.Covers])
  next kind hkind => exact h.close hpending ht hkind

/-- A token that is read once a chunk has taken the place of what was pending. -/
theorem read_complete (h : Traced ts b.index b) {c : Chunk} (hc : c.Atom ts)
    (hstart : c.tokens.start = b.pending.start b.index) (hstop : c.tokens.stop ≤ b.index)
    (hcovers : ∀ k, b.pending.Covers k → k < c.tokens.stop) (weak : Bool)
    (ht : ts[b.index]? = some t) : Traced ts (b.index + 1) ((b.complete c weak).read t) := by
  have hindex : (b.complete c weak).index = b.index := index_complete b c weak
  have hcomplete : Traced ts (b.complete c weak).index (b.complete c weak) := by
    rw [hindex]
    exact h.complete_before hc hstart hstop hcovers weak
  have hread := hcomplete.read rfl (t := t) (by rw [hindex, ht])
  rwa [hindex] at hread

/-- Where a string goes on, the builders differ in what is pending and in what is reported only. -/
theorem extend (h : Traced ts b.index b) {s : OpenString} (hpending : b.pending = .string s)
    (ht : ts[b.index]? = some t) (hkeeps : keepsString t = true) (text : String)
    {ds : List Diagnostic} (hds : b.diagnostics ⊆ ds) :
    Traced ts (b.index + 1)
      { b with pending := .string (s.extend text t b.index), diagnostics := ds } := by
  have htraced := h.pending
  rw [hpending] at htraced
  cases htraced with
  | string hs hlast =>
    have hle := hs.first_le_last
    refine h.hold rfl rfl hds ?_ ?_ fun k hk => ?_
    · dsimp only
      rw [← hlast]
      exact .string (.extend text hs (hlast ▸ ht) hkeeps) rfl
    · rw [hpending]
      exact le_rfl
    · rw [hpending] at hk
      rcases hk with hk | rfl
      · exact ⟨hk.1, hk.2.trans (hlast ▸ Nat.le_succ _)⟩
      · exact ⟨hlast ▸ hle.trans (Nat.le_succ _), le_rfl⟩

/-- The token that a builder reads next, and those behind it. -/
theorem next_of_drop {us : List Token} (hdrop : ts.drop b.index = t :: us) :
    ts[b.index]? = some t ∧ ts.drop (b.step t).index = us := by
  constructor
  · rw [← head?_drop, hdrop]
    rfl
  · change ts.drop (b.index + 1) = us
    rw [← tail_drop, hdrop, tail_cons]

/-- A token leaves a builder traced. -/
theorem step (h : Traced ts b.index b) (ht : ts[b.index]? = some t) :
    Traced ts (b.step t).index (b.step t) := by
  suffices hnext : Traced ts (b.index + 1) (b.readNext t) from
    hnext.of_eq rfl rfl rfl (List.Subset.refl _)
  have htraced := h.pending
  have houtcome := outcome_readNext b t
  generalize b.readNext t = b' at houtcome ⊢
  -- a colon and a closing quote belong to what they end, every other token is read behind it
  cases houtcome with
  | skip hnone hignored => exact h.skip hnone ht (.inl hignored)
  | read hpending _ => exact h.read hpending ht
  | invalid hpending _ => exact h.invalid (by simp [hpending]) ht
  | payload hpending hkind =>
    rw [hpending] at htraced
    cases htraced with
    | tag htag hlt =>
      exact h.opening ht hkind (by simp [htag, hlt])
        (by simp [hpending, Frame.start, Pending.start]) (by simp [hpending, Pending.Covers])
  | unit hpending _ =>
    rw [hpending] at htraced
    cases htraced with
    | tag htag hlt =>
      refine h.read_complete (.unit htag) (by rw [hpending]; rfl) hlt (fun k hk => ?_) true ht
      rw [hpending] at hk
      exact hk ▸ Nat.lt_succ_self _
  | colon hpending hcolon =>
    rw [hpending] at htraced
    cases htraced with
    | key hkey hkind hlt =>
      refine h.complete (.key (.keyWithColon hkey hkind hlt ht hcolon) (Nat.lt_succ_of_lt hlt))
        (by rw [hpending]; rfl) le_rfl (fun k hk => ?_) false
      rw [hpending] at hk
      rcases hk with rfl | hk
      · exact Nat.lt_succ_of_lt hlt
      · exact hk.2
  | bareKey hpending _ _ =>
    rw [hpending] at htraced
    cases htraced with
    | key hkey hkind hlt =>
      refine h.read_complete (.key (.bareKey hkey hkind) (Nat.lt_succ_self _))
        (by rw [hpending]; rfl)
        hlt (fun k hk => ?_) false ht
      rw [hpending] at hk
      exact hk ▸ Nat.lt_succ_self _
  | text hpending hpart =>
    exact h.extend hpending ht (keepsString_of_stringPart? hpart) _ (List.Subset.refl _)
  | badText hpending hkeeps _ =>
    exact h.extend hpending ht hkeeps _ (subset_append_left _ _)
  | @closingQuote s hpending hkind =>
    rw [hpending] at htraced
    cases htraced with
    | string hs hlast =>
      have hlt : s.first < s.last + 1 + 1 :=
        Nat.lt_succ_of_le (hs.first_le_last.trans (Nat.le_succ _))
      rw [← hlast] at h ⊢
      refine h.complete (.value (.quoted hs (hlast ▸ ht) hkind) hlt) (by rw [hpending]; rfl) le_rfl
        (fun k hk => ?_) true
      rw [hpending] at hk
      rcases hk with hk | hk
      · exact Nat.lt_succ_of_le (hk.2.trans (Nat.le_succ _))
      · exact hk.2
  | @cut s hpending _ _ =>
    rw [hpending] at htraced
    cases htraced with
    | string hs hlast =>
      let cut := b.report (.error .unterminatedString s.range "Unterminated string.")
      have hcut : Traced ts cut.index cut := h.of_eq rfl rfl rfl (subset_append_left _ _)
      refine hcut.read_complete (.value (.unterminated hs) (Nat.lt_succ_of_le hs.first_le_last))
        (hpending ▸ rfl) hlast.le (fun k hk => ?_) true ht
      rw [show cut.pending = .string s from hpending] at hk
      exact Nat.lt_succ_of_le hk.2

/-- Tokens leave a builder traced. -/
theorem run {us : List Token} (h : Traced ts b.index b) (hdrop : ts.drop b.index = us) :
    Traced ts (b.run us).index (b.run us) := by
  induction us generalizing b with
  | nil => exact h
  | cons t us ih =>
    obtain ⟨ht, hrest⟩ := next_of_drop hdrop
    exact ih (h.step ht) hrest

/-- A builder is traced before the first token. -/
theorem start : Traced ts 0 {} :=
  ⟨by simp [Has], by simp, .none, .nil (.nil _ _), fun i _ hi => absurd hi (Nat.not_lt_zero i)⟩

/-- Behind the last token, what is pending is complete or, if it is a string, lost. -/
theorem settle (h : Traced ts ts.length b) : Traced ts ts.length b.settle := by
  have htraced := h.pending
  unfold Builder.settle
  split
  next => exact h
  next tag hpending =>
    rw [hpending] at htraced
    cases htraced with
    | tag htag hlt =>
      refine h.complete_before (.unit htag) (by rw [hpending]; rfl) hlt (fun k hk => ?_) true
      rw [hpending] at hk
      exact hk ▸ Nat.lt_succ_self _
  next key i hpending =>
    rw [hpending] at htraced
    cases htraced with
    | key hkey hkind hlt =>
      refine h.complete_before (.key (.bareKey hkey hkind) (Nat.lt_succ_self i))
        (by rw [hpending]; rfl) hlt (fun k hk => ?_) false
      rw [hpending] at hk
      exact hk ▸ Nat.lt_succ_self _
  next s hpending =>
    rw [hpending] at htraced
    cases htraced with
    | string hs hlast =>
      refine h.advance rfl rfl (subset_append_left _ _) .none h.pending.start_le (fun k u hk => ?_)
        fun _ _ hik hki => absurd hki (Nat.not_lt.2 hik)
      rw [hpending] at hk
      -- all tokens were read, so none behind the quote has ended the string
      refine .ranOut ⟨s.first, hk.1, hs.opening, fun j v hj hv => ?_⟩
        ⟨b.tooEarly, mem_append_right _ (mem_singleton_self _), rfl, rfl⟩
      have hlt : j < ts.length := (List.getElem?_eq_some_iff.1 hv).1
      exact hs.keepsString_of_le hj (by omega) hv

/-- What is open when the tokens end is closed at the last one. -/
theorem finish (h : Traced ts ts.length b) (hindex : b.index = ts.length)
    (hlast : ∀ t, b.last = some t → ts[ts.length - 1]? = some t) :
    Traced ts ts.length b.finish := by
  unfold Builder.finish
  dsimp only
  split
  next t hl =>
    rw [last_settle] at hl
    split
    · exact h.settle
    · -- the blocks are closed at the last token, which was read and is held already
      have ht := hlast t hl
      have hlength : ts.length - 1 + 1 = ts.length := by
        have hlt : ts.length - 1 < ts.length := (List.getElem?_eq_some_iff.1 ht).1
        omega
      have hearly : Traced ts (ts.length - 1 + 1) b.settle.endTooEarly := by
        rw [hlength]
        exact h.settle.of_eq rfl rfl rfl (subset_append_left _ _)
      rw [index_settle, hindex]
      have hmany := hearly.popMany b.pending_settle ht b.settle.depth
      rwa [hlength] at hmany
  next => exact h.settle

end Traced

/-- A builder is traced after any run. -/
theorem traced_run (ts : List Token) : Traced ts ts.length (run {} ts) := by
  have hindex : (run {} ts).index = ts.length := by rw [index_run]; exact Nat.zero_add _
  have hrun : Traced ts (run {} ts).index (run {} ts) := Traced.start.run rfl
  rwa [hindex] at hrun

/-- When the tokens end, all that was built is outside of blocks. -/
theorem traced_finish (ts : List Token) :
    Traced ts ts.length (run {} ts).finish ∧ (run {} ts).finish.frames = [] ∧
      (run {} ts).finish.pending = .none := by
  refine ⟨(traced_run ts).finish ?_ fun t ht => ?_, ?_, ?_⟩
  · rw [index_run]
    exact Nat.zero_add _
  · rcases eq_nil_or_concat ts with rfl | ⟨us, u, rfl⟩
    · simp at ht
    · rw [concat_eq_append, last_run_concat] at ht
      simpa using ht
  · exact frames_finish _ last_ne_none
  · exact pending_finish _

/-! ### Blocks that cannot be counted -/

/-- Tokens are read one by one until the blocks that one of them closes cannot be counted. -/
theorem foldlM_step? (b : Builder) (ts : List Token) :
    (ts.foldlM step? b = some (b.run ts) ∧
        ∀ before t after, ts = before ++ t :: after → (b.run before).overflows t = false) ∨
      (ts.foldlM step? b = none ∧
        ∃ before t after, ts = before ++ t :: after ∧ (b.run before).overflows t = true) := by
  induction ts generalizing b with
  | nil => exact .inl ⟨rfl, by simp⟩
  | cons u us ih =>
    cases hu : b.overflows u with
    | true => exact .inr ⟨by simp [step?, hu], [], u, us, rfl, hu⟩
    | false =>
      have hfold : (u :: us).foldlM step? b = us.foldlM step? (b.step u) := by
        simp [step?, hu]
      rw [hfold]
      refine (ih (b.step u)).imp (fun h => ⟨h.1, fun before t after heq => ?_⟩) fun h => ?_
      · cases before with
        | nil =>
          obtain ⟨rfl, -⟩ := List.cons.inj heq
          exact hu
        | cons v before =>
          obtain ⟨rfl, hus⟩ := List.cons.inj heq
          exact h.2 before t after hus
      · obtain ⟨hnone, before, t, after, rfl, ht⟩ := h
        exact ⟨hnone, u :: before, t, after, rfl, ht⟩

/-- Below the greatest depth all blocks can be counted. -/
theorem overflows_eq_false {before after : List Token} {t : Token}
    (hdepth : ∀ u ∈ before ++ t :: after, u.depth + 1 < UInt64.size) :
    (run {} before).overflows t = false := by
  unfold overflows
  split
  next f fs kind hframes _ =>
    have hf := (traced_run before).frames f (by rw [hframes]; exact mem_cons_self)
    have hlt := hdepth f.bracket (mem_append_left _ (mem_of_getElem? hf.bracket))
    have hcounts : spanned f.bracket t < UInt64.size := by
      rw [spanned]
      omega
    simp [hcounts]
  next => rfl

end Builder

/-- Each token with a meaning is accounted for or reported. -/
theorem accounted (ts : List Token) {i : Nat} {t : Token} (ht : ts[i]? = some t)
    (hignored : t.kind ≠ .ignored) (hnewline : t.kind ≠ .newline) :
    (∃ c ∈ nodes (ofTokens ts).1, c.Accounts ts i) ∨ IsReported (ofTokens ts).2.diagnostics t ∨
      RunsOut ts i ∧ IsCutShort (ofTokens ts).2.diagnostics := by
  obtain ⟨htraced, hframes, hpending⟩ := Builder.traced_finish ts
  have hlt : i < ts.length := (List.getElem?_eq_some_iff.1 ht).1
  cases htraced.holds i t hlt ht hignored hnewline with
  | node hc haccounts =>
    refine .inl ⟨_, hc.resolve_right ?_, haccounts⟩
    simp [hframes]
  | reported hreported => exact .inr (.inl hreported)
  | ranOut hout hshort => exact .inr (.inr ⟨hout, hshort⟩)
  | frame hf _ => simp [hframes] at hf
  | pending hcovers =>
    rw [hpending] at hcovers
    exact hcovers.elim

/-- The chunks without parts lie one behind the other. -/
theorem row_leaves (ts : List Token) :
    Row 0 ts.length ((leaves (ofTokens ts).1).map tokens) := by
  obtain ⟨htraced, hframes, hpending⟩ := Builder.traced_finish ts
  have hrows := htraced.rows
  rw [hframes, hpending] at hrows
  cases hrows with
  | nil htop => exact htop

/-- The chunks of tokens whose blocks can be counted are those that the builder leaves. -/
theorem ofTokens?_eq (ts : List Token) :
    (ofTokens? ts = some (ofTokens ts) ∧ ∀ before t after, ts = before ++ t :: after →
        (Builder.run {} before).overflows t = false) ∨
      (ofTokens? ts = none ∧ ∃ before t after, ts = before ++ t :: after ∧
        (Builder.run {} before).overflows t = true) := by
  refine (Builder.foldlM_step? {} ts).imp (fun h => ⟨?_, h.2⟩) fun h => ⟨?_, h.2⟩
  · rw [ofTokens?, h.1]
    rfl
  · rw [ofTokens?, h.1]
    rfl

/-- **No token is dropped silently.** Any tokens have chunks, unless a closing bracket of the wrong
kind closes more blocks than can be counted in 64 bits, and that takes a bracket whose depth is the
greatest of 64 bits. Each token that is neither ignored nor a newline is then accounted for by a
chunk, is reported as standing for nothing, or is part of a string that is still open when the
tokens end, which is reported as fatal. The chunks without parts have token ranges that are disjoint
and in order. -/
theorem every_token_is_accounted_for (ts : List Token) :
    (ofTokens? ts = none ↔ ∃ before t after, ts = before ++ t :: after ∧
        (Builder.run {} before).overflows t = true) ∧
      ((∀ t ∈ ts, t.depth + 1 < UInt64.size) → (ofTokens? ts).isSome = true) ∧
      ∀ chunks report, ofTokens? ts = some (chunks, report) →
        (∀ i t, ts[i]? = some t → t.kind ≠ .ignored → t.kind ≠ .newline →
          (∃ c ∈ nodes chunks, c.Accounts ts i) ∨
          IsReported report.diagnostics t ∨
          RunsOut ts i ∧ IsCutShort report.diagnostics) ∧
        Row 0 ts.length ((leaves chunks).map tokens) := by
  have hcases := ofTokens?_eq ts
  refine ⟨?_, fun hdepth => ?_, fun chunks report hchunks => ?_⟩
  · rcases hcases with ⟨hsome, hcounts⟩ | ⟨hnone, hover⟩
    · refine iff_of_false (by simp [hsome]) ?_
      rintro ⟨before, t, after, heq, ht⟩
      simp [hcounts before t after heq] at ht
    · exact iff_of_true hnone hover
  · rcases hcases with ⟨hsome, -⟩ | ⟨-, before, t, after, rfl, ht⟩
    · simp [hsome]
    · simp [Builder.overflows_eq_false hdepth] at ht
  · obtain ⟨heq, -⟩ := hcases.resolve_right (by simp [hchunks])
    obtain ⟨rfl, rfl⟩ := Prod.mk.inj (Option.some.inj (hchunks.symm.trans heq))
    exact ⟨fun i t => accounted ts, row_leaves ts⟩

/-- A tag, its bracket, a colon that stands for nothing and a string without its closing quote: the
text of the string is not lost. -/
theorem every_token_is_accounted_for_of_open_string :
    let text : Token := ⟨.stringText false, .onLine 0 5 6, "x", 1⟩
    let ts : List Token :=
      [⟨.tag, .onLine 0 0 2, "#A", 0⟩, ⟨.bracket .array .opening, .onLine 0 2 3, "[", 1⟩,
        ⟨.colon, .onLine 0 3 4, ":", 1⟩, ⟨.quote .opening, .onLine 0 4 5, "\"", 1⟩, text]
    (ts[4]? = some text ∧ text.kind ≠ .ignored ∧ text.kind ≠ .newline) ∧
      ∃ chunks report, ofTokens? ts = some (chunks, report) ∧
        ((∃ c ∈ nodes chunks, c.Accounts ts 4) ∨
          IsReported report.diagnostics text ∨
          RunsOut ts 4 ∧ IsCutShort report.diagnostics) := by
  intro text ts
  have hkind : text.kind ≠ .ignored ∧ text.kind ≠ .newline := by decide
  obtain ⟨-, hsome, haccounts⟩ := every_token_is_accounted_for ts
  obtain ⟨⟨chunks, report⟩, hchunks⟩ := Option.isSome_iff_exists.1 (hsome (by decide))
  exact ⟨⟨rfl, hkind⟩, chunks, report, hchunks,
    (haccounts chunks report hchunks).1 4 text rfl hkind.1 hkind.2⟩

/-- A bracket of the greatest depth and one of another kind outside of all blocks: too many blocks
are between them. -/
theorem deepest_bracket_cannot_be_counted :
    ofTokens? [⟨.bracket .array .opening, .onLine 0 0 1, "[", 18446744073709551615⟩,
      ⟨.bracket .dict .closing, .onLine 0 1 2, "\x7d", 0⟩] = none := by
  rfl

end Chunk

end TypedNotation
