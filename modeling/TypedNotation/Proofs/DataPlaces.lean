import Mathlib.Data.List.Pairwise
import TypedNotation.Proofs.ChunkPlaces

/-!
# Places of data

The chunks of a block lie in a row, so what is read from them does, if it is read in order and
nothing is read twice. An array or a tuple takes all of the values and a dict takes some
(`Chunk.children_contents_sublist`). A dict stores a key where its name is written first, and a
value under the key before it (`Sequence.mem_newEntry_iff`).

A data tree is made of placed chunks when nothing fatal was found, and then every node of it sits
where the tokens say (`Document.sits_of_mem_nodes`).
-/

namespace TypedNotation

open List

/-! ### Nodes that sit -/

/-- A key of a dict is where its token is: between the brackets, before the value under it and apart
from every part, by the tokens and by the positions. -/
structure KeySits (ts : List Token) (b : Block Data) (entries : List (String × Data))
    (name : String) (r : Range) (i : Nat) : Prop where
  token : ∃ t, ts[i]? = some t ∧ t.kind = .key ∧ t.text = name ∧ t.range = r
  inside : b.tokens.start < i ∧ i < b.tokens.stop - 1
  opening : ∀ t, ts[b.tokens.start]? = some t → t.range.stop ≤ r.start
  closing : ∀ t, ts[b.tokens.stop - 1]? = some t → r.stop ≤ t.range.start
  before : ∀ d, (name, d) ∈ entries → i < d.tokens.start ∧ r.stop ≤ d.range.start
  apart : ∀ d ∈ entries.map (·.2), (i < d.tokens.start ∧ r.stop ≤ d.range.start) ∨
    (d.tokens.stop ≤ i ∧ d.range.stop ≤ r.start)

/-- The keys of a dict are different, those of the properties have places, and the places are where
the tokens are. -/
structure KeysSit (ts : List Token) (b : Block Data) (entries : List (String × Data))
    (keyRanges : List (String × Range)) : Prop where
  entries_nodup : (entries.map (·.1)).Nodup
  keyRanges_nodup : (keyRanges.map (·.1)).Nodup
  placed : ∀ name ∈ entries.map (·.1), name ∈ keyRanges.map (·.1)
  key : ∀ name r, (name, r) ∈ keyRanges → ∃ i, KeySits ts b entries name r i

/-- A block has the brackets of its kind, and its parts and keys between them. -/
structure Block.Sits (ts : List Token) (b : Block Data) : Prop where
  enclosed : Enclosed ts b.contents.kind b.range b.tokens
  row : TokenRange.Row (b.tokens.start + 1) (b.tokens.stop - 1)
    (b.contents.children.map Data.tokens)
  keys : ∀ entries keyRanges, b.contents = .dict entries keyRanges → KeysSit ts b entries keyRanges

/-- From which tokens a node was made. -/
inductive Data.Sits (ts : List Token) : Data → Prop
  | literal {i : Nat} {t : Token} {l : Literal} (ht : ts[i]? = some t)
      (hkind : t.kind = .literal l) :
      Data.Sits ts (.primitive (l.read t).1 t.range (.single i))
  | string {text : String} {r : Range} {n : TokenRange} (hquoted : Quoted ts r n) :
      Data.Sits ts (.primitive (.string text) r n)
  | unit {i : Nat} {t : Token} (ht : ts[i]? = some t) (hkind : t.kind = .tag) :
      Data.Sits ts (.enum t.tagName t.range none t.range (.single i))
  | block {b : Block Data} (hb : b.Sits ts) : Data.Sits ts (.block b)
  | payload {i : Nat} {t : Token} {b : Block Data} {r : Range} (ht : ts[i]? = some t)
      (hkind : t.kind = .tag) (hlt : i < b.tokens.start) (hb : b.Sits ts)
      (hspans : Spans ts r ⟨i, b.tokens.stop⟩) :
      Data.Sits ts (.enum t.tagName t.range (some b) r ⟨i, b.tokens.stop⟩)

/-- An enum value starts at its tag. It ends with its payload, which is behind the tag, or with the
tag if there is none. -/
structure EnumSits (ts : List Token) (tag : String) (tagRange : Range)
    (payload : Option (Block Data)) (range : Range) (tokens : TokenRange) : Prop where
  tag : ∃ t, ts[tokens.start]? = some t ∧ t.kind = .tag ∧ t.tagName = tag ∧ t.range = tagRange
  unit : payload = none → tokens.stop = tokens.start + 1
  behind : ∀ b ∈ payload, tokens.start < b.tokens.start ∧ tagRange.stop ≤ b.range.start
  ends : ∀ b ∈ payload, b.tokens.stop = tokens.stop ∧ b.range.stop = range.stop

namespace Data.Sits

variable {ts : List Token} {n : Data}

theorem spans (h : n.Sits ts) : Spans ts n.range n.tokens := by
  cases h with
  | literal ht _ => exact .single ht
  | string hquoted => exact hquoted.toSpans
  | unit ht _ => exact .single ht
  | block hb => exact hb.enclosed.toSpans
  | payload _ _ _ _ hspans => exact hspans

theorem innerBlock {b : Block Data} (h : n.Sits ts) (hb : n.innerBlock? = some b) : b.Sits ts := by
  cases h with
  | block hsits | payload _ _ _ hsits _ =>
    obtain rfl := Option.some.inj hb
    exact hsits
  | _ => cases hb

theorem enumSits (hts : Token.InOrder ts) {tag : String} {tagRange range : Range}
    {payload : Option (Block Data)} {tokens : TokenRange}
    (h : Data.Sits ts (.enum tag tagRange payload range tokens)) :
    EnumSits ts tag tagRange payload range tokens := by
  cases h with
  | unit ht hkind => exact ⟨⟨_, ht, hkind, rfl, rfl⟩, fun _ => rfl, by simp, by simp⟩
  | @payload i t b r ht hkind hlt hb hspans =>
    refine ⟨⟨t, ht, hkind, rfl, rfl⟩, by simp, ?_, ?_⟩
    · rintro b' ⟨⟩
      exact ⟨hlt, (Spans.single ht).stop_le_start hts hb.enclosed.toSpans hlt⟩
    · rintro b' ⟨⟩
      -- the enum value and its payload end with the same token
      obtain ⟨last, hlast, hstop⟩ := hspans.stop
      obtain ⟨last', hlast', hstop'⟩ := hb.enclosed.stop
      obtain rfl := Option.some.inj (hlast.symm.trans hlast')
      exact ⟨rfl, hstop'.trans hstop.symm⟩

end Data.Sits

namespace Chunk

/-- Data is where its chunk is. -/
theorem place_of_value? {c : Chunk} {d : Data} (h : c.value? = some d) :
    d.tokens = c.tokens ∧ d.range = c.range := by
  obtain ⟨⟨d', problems⟩, hdata, rfl⟩ := Option.map_eq_some_iff.1 h
  rcases c with ⟨⟨_, _, _, _⟩⟩ | ⟨_, _, _ | ⟨_, _, _, _⟩, _, _⟩ | _ | _ | _
  all_goals cases hdata
  all_goals exact ⟨rfl, rfl⟩

theorem map_tokens_sublist (cs : List Chunk) :
    ((cs.filterMap value?).map Data.tokens).Sublist (cs.map tokens) := by
  induction cs with
  | nil => exact .slnil
  | cons c rest ih =>
    rw [filterMap_cons, map_cons]
    split
    next => exact ih.cons _
    next d hd =>
      rw [map_cons, (place_of_value? hd).1]
      exact ih.cons_cons _

theorem kind_contents (kind : BlockKind) (items : List Sequence.Item) :
    (Sequence.contents kind items).1.kind = kind := by
  cases kind <;> rfl

section Sits

open Sequence

variable {ts : List Token} {cs : List Chunk} {b : Block Data}

/-- Of two chunks in a row one is behind the other. -/
theorem Siblings.apart {lo hi : Nat} (h : Siblings ts lo hi cs) {c d : Chunk} (hc : c ∈ cs)
    (hd : d ∈ cs) (hne : c ≠ d) :
    c.tokens.stop ≤ d.tokens.start ∨ d.tokens.stop ≤ c.tokens.start := by
  let Apart (c d : Chunk) : Prop :=
    c.tokens.stop ≤ d.tokens.start ∨ d.tokens.stop ≤ c.tokens.start
  have : Std.Symm Apart := ⟨fun _ _ => Or.symm⟩
  have hpairwise : cs.Pairwise Apart := (pairwise_map.1 h.row.ordered).imp .inl
  exact hpairwise.forall hc hd hne

/-- A key that was stored sits behind the opening bracket, before its value and apart from all that
was stored. -/
theorem exists_keySits (hts : Token.InOrder ts)
    (hcs : Siblings ts (b.tokens.start + 1) (b.tokens.stop - 1) cs) {name : String} {r : Range}
    (hmem : (name, r) ∈ (places cs).flatMap Place.newKey) :
    ∃ i, KeySits ts b ((places cs).flatMap Place.newEntry) name r i := by
  obtain ⟨⟨before, k, after⟩, hp, hk⟩ := mem_flatMap.1 hmem
  obtain ⟨hkey, hfresh⟩ := Place.mem_newKey_iff.1 hk
  have hc : k ∈ cs := mem_of_mem_places hp
  have hcut := mem_places.1 hp
  obtain ⟨hstart, -, hstop⟩ := hcs.row.within _ (mem_map_of_mem hc)
  cases hcs.placed _ hc with
  | @key i stop t range ht hkind hspans =>
    obtain ⟨rfl, rfl⟩ := Prod.mk.inj (Option.some.inj hkey)
    dsimp only [tokens] at hstart hstop
    have hlt : i < stop := hspans.lt
    have hbefore : ∀ c ∈ cs, ∀ d, c.value? = some d → stop ≤ c.tokens.start →
        i < d.tokens.start ∧ t.range.stop ≤ d.range.start := by
      intro c hc d hd hle
      obtain ⟨htokens, hrange⟩ := place_of_value? hd
      rw [htokens, hrange]
      exact ⟨hlt.trans_le hle,
        (Spans.single ht).stop_le_start hts (hcs.placed c hc).spans (Nat.le_trans hlt hle)⟩
    refine ⟨i, ⟨t, ht, hkind, rfl, rfl⟩, ⟨by omega, by omega⟩,
      fun _ hopening => hts.stop_le_start hopening ht hstart,
      fun _ hclosing => hts.stop_le_start ht hclosing (hlt.trans_le hstop),
      fun d hd => ?_, fun d hd => ?_⟩
    · obtain ⟨older, k, separators, c, rest, hcs', hk, holder, -, hvalue⟩ := mem_newEntry_iff.1 hd
      obtain ⟨-, hafter⟩ := eq_of_first_key (hcut.symm.trans hcs') rfl hk
        (by rwa [mem_keyNames_reverse]) holder
      have hordered := pairwise_map.1 hcs.row.ordered
      rw [hcut, hafter] at hordered
      exact hbefore c (by simp [hcs']) d hvalue
        (rel_of_pairwise_cons (pairwise_append.1 hordered).2.1 (by simp))
    · have hvalue := (map_snd_newEntry_sublist [] cs).subset hd
      obtain ⟨c, hc', hd⟩ := mem_filterMap.1 hvalue
      have hne : Chunk.key t.text t.range range ⟨i, stop⟩ ≠ c := by
        rintro rfl
        simp [value?, data?] at hd
      rcases hcs.apart hc hc' hne with hle | hle
      · exact .inl (hbefore c hc' d hd hle)
      · obtain ⟨htokens, hrange⟩ := place_of_value? hd
        rw [htokens, hrange]
        exact .inr ⟨hle, (hcs.placed c hc').spans.stop_le_start hts (.single ht) hle⟩
  | _ => cases hkey

/-- A block that is read from placed chunks sits. -/
theorem BlockPlaced.sits (hts : Token.InOrder ts) {b : Bracketed Chunk} (h : BlockPlaced ts b) :
    (blockData b).1.Sits ts := by
  obtain ⟨kind, children, r, n⟩ := b
  obtain ⟨henclosed, hrow, hchildren⟩ := h
  refine ⟨?_, ?_, ?_⟩
  · rw [show (blockData ⟨kind, children, r, n⟩).1.contents.kind = kind from kind_contents kind _]
    exact henclosed
  · have hsub := (children_contents_sublist kind children).map Data.tokens
    exact hrow.sublist (hsub.trans (map_tokens_sublist children))
  · intro entries keyRanges hcontents
    cases kind with
    | dict =>
      simp only [blockData, contents, dict_eq] at hcontents
      obtain ⟨rfl, rfl⟩ := Contents.dict.inj hcontents
      have hnames := map_fst_newEntry_sublist [] children
      have hnodup := nodup_map_fst_newKey children
      exact ⟨hnodup.sublist hnames, hnodup, hnames.subset,
        fun name r hmem => exists_keySits hts ⟨hrow, hchildren⟩ hmem⟩
    | array => cases hcontents
    | tuple => cases hcontents

/-- The data of a placed chunk sits, whatever is inside of it. -/
theorem Placed.sits (hts : Token.InOrder ts) {c : Chunk} (h : c.Placed ts) {d : Data}
    (hd : c.value? = some d) : d.Sits ts := by
  obtain ⟨⟨d', problems⟩, hdata, rfl⟩ := Option.map_eq_some_iff.1 hd
  cases h with
  | literal ht hkind =>
    cases hdata
    exact .literal ht hkind
  | string hquoted =>
    cases hdata
    exact .string hquoted
  | separator ht => cases hdata
  | key ht hkind hspans => cases hdata
  | unit ht hkind =>
    cases hdata
    exact .unit ht hkind
  | block hb =>
    cases hdata
    exact .block (hb.sits hts)
  | @payload _ _ b _ ht hkind hlt hb hspans =>
    obtain ⟨kind, children, r, n⟩ := b
    cases hdata
    exact .payload ht hkind hlt (hb.sits hts) hspans

theorem BlockPlaced.exists_chunk {b : Bracketed Chunk} (h : BlockPlaced ts b) {d : Data}
    (hd : d ∈ (blockData b).1.contents.children) :
    ∃ c : Chunk, c.Placed ts ∧ c.value? = some d := by
  obtain ⟨kind, children, r, n⟩ := b
  obtain ⟨-, -, hchildren⟩ := h
  obtain ⟨c, hc, hvalue⟩ :=
    mem_filterMap.1 ((children_contents_sublist kind children).subset hd)
  exact ⟨c, hchildren c hc, hvalue⟩

/-- The parts of what a placed chunk stands for come from placed chunks. -/
theorem Placed.exists_chunk {c : Chunk} (h : c.Placed ts) {d part : Data} {b : Block Data}
    (hd : c.value? = some d) (hb : d.innerBlock? = some b) (hpart : part ∈ b.contents.children) :
    ∃ c' : Chunk, c'.Placed ts ∧ c'.value? = some part := by
  obtain ⟨⟨d', problems⟩, hdata, rfl⟩ := Option.map_eq_some_iff.1 hd
  cases h with
  | separator ht => cases hdata
  | key ht hkind hspans => cases hdata
  | block hblock | payload _ _ _ hblock _ =>
    cases hdata
    obtain rfl := Option.some.inj hb
    exact hblock.exists_chunk hpart
  | _ =>
    cases hdata
    cases hb

theorem Placed.sits_of_mem_nodes (hts : Token.InOrder ts) {c : Chunk} (h : c.Placed ts) {d : Data}
    (hd : c.value? = some d) : ∀ n ∈ d.nodes, n.Sits ts := by
  induction d using Data.induction_on_parts generalizing c with
  | h d ih =>
    intro n hn
    rcases Data.mem_nodes_iff.1 hn with rfl | ⟨b, hb, part, hpart, hn⟩
    · exact h.sits hts hd
    · obtain ⟨c', hc', hvalue⟩ := h.exists_chunk hd hb hpart
      exact ih b hb part hpart hc' hvalue n hn

end Sits

end Chunk

namespace Document

/-- Every node of a document sits where its tokens say. -/
theorem sits_of_mem_nodes {text : String} {d : Data} (h : (parse text).data = some d) :
    ∀ n ∈ d.nodes, n.Sits (tokensOf text) := by
  have hdata := congrArg Prod.fst (data_report_parse text)
  dsimp only at hdata
  rw [hdata] at h
  have hcontinue : (Chunk.ofTokens (tokensOf text)).2.canContinue = true := by
    by_contra hfatal
    rw [Bool.not_eq_true] at hfatal
    rw [(Data.ofChunks_eq_none_iff _ _).2 (.inl hfatal)] at h
    cases h
  rcases Data.ofChunks_cases (Chunk.ofTokens (tokensOf text)).1
      (Chunk.ofTokens (tokensOf text)).2 with
    ⟨-, hnone⟩ | ⟨-, -, _, _, _, hnone⟩ | ⟨-, c, data, problems, hvalues, hc, hsome⟩
  · simp [hnone] at h
  · simp [hnone] at h
  · obtain rfl : data = d := by simpa [hsome] using h
    have hmem : c ∈ (Chunk.ofTokens (tokensOf text)).1 :=
      (mem_filter.1 (hvalues ▸ mem_singleton_self c)).1
    exact (placed_of_mem_ofTokens hcontinue c hmem).sits_of_mem_nodes (inOrder_tokensOf text)
      (by simp [Chunk.value?, hc])

/-- **The positions in a document are nested as its brackets are.** Every node of the data has
tokens, and its range goes from the start of the first to the stop of the last. An enum value starts
at its tag and ends with its payload. A block goes from an opening bracket of its kind to a closing
one, with its parts between them one behind the other; in a dict the keys are between them as well,
each before the value under it and apart from all values. -/
theorem positions_are_nested {text : String} {d : Data} (h : (parse text).data = some d) :
    ∀ n ∈ d.nodes,
      Spans (parse text).tokens n.range n.tokens ∧
      (∀ tag tagRange payload range tokens, n = .enum tag tagRange payload range tokens →
        EnumSits (parse text).tokens tag tagRange payload range tokens) ∧
      ∀ b, n.innerBlock? = some b →
        Enclosed (parse text).tokens b.contents.kind b.range b.tokens ∧
        TokenRange.Row (b.tokens.start + 1) (b.tokens.stop - 1)
          (b.contents.children.map Data.tokens) ∧
        ∀ entries keyRanges, b.contents = .dict entries keyRanges →
          KeysSit (parse text).tokens b entries keyRanges := by
  intro n hn
  have hsits := sits_of_mem_nodes h n hn
  rw [tokens_parse]
  refine ⟨hsits.spans, ?_, fun b hb => ?_⟩
  · rintro tag tagRange payload range tokens rfl
    exact hsits.enumSits (inOrder_tokensOf text)
  · have hblock := hsits.innerBlock hb
    exact ⟨hblock.enclosed, hblock.row, hblock.keys⟩

/-- In `{a: #B(1,), c, a: 2}` three nodes are left: the dict, the enum value under the first `a`,
and the number in it. -/
theorem positions_are_nested_of_recovered :
    let document := parse "\x7ba: #B(1,), c, a: 2\x7d"
    ∃ d, document.data = some d ∧ d.nodes.length = 3 ∧
      ∀ n ∈ d.nodes, Spans document.tokens n.range n.tokens ∧
        ∀ b, n.innerBlock? = some b → Enclosed document.tokens b.contents.kind b.range b.tokens ∧
          TokenRange.Row (b.tokens.start + 1) (b.tokens.stop - 1)
            (b.contents.children.map Data.tokens) := by
  intro document
  have hnodes : document.data.map (·.nodes.length) = some 3 := by decide +kernel
  obtain ⟨d, hd, hlength⟩ := Option.map_eq_some_iff.1 hnodes
  refine ⟨d, hd, hlength, fun n hn => ?_⟩
  obtain ⟨hspans, -, hblock⟩ := positions_are_nested hd n hn
  exact ⟨hspans, fun b hb => ⟨(hblock b hb).1, (hblock b hb).2.1⟩⟩

end Document

end TypedNotation
