import TypedNotation.Proofs.CheckedLayout
import TypedNotation.Proofs.StringLayout

/-!
# The layout counts exactly

The layout of a document can be computed in words of 32 bits (`Layout.Checked.lint?`), and then only
one step can go wrong: the product of the width of an indent and the number of blocks around a
position. It is exact for all positions that are asked for, or the whole computation fails, as
`Layout.lint?` says (`Document.layout_is_exact_iff_indents_fit`).

Everything else is bounded by the size of the text. The columns, the lines and the tokens of a
document all fit into the room that its lines take (`Text.room`), and a block has at least two
tokens of its own, so there are fewer blocks around a position than there are tokens
(`Data.depthAt_lt`).
-/

namespace TypedNotation

open List
open Text (units16)

/-! ### The room of a text -/

namespace Text

/-- The columns of some lines, with one more for the end of each line. -/
def room (lines : List (List Char)) : Nat :=
  (lines.map fun line => units16 line + 1).sum

@[simp] theorem room_cons (line : List Char) (lines : List (List Char)) :
    room (line :: lines) = units16 line + 1 + room lines := by
  simp [room]

/-- There are no more lines than there is room. -/
theorem length_le_room (lines : List (List Char)) : lines.length ≤ room lines := by
  induction lines with
  | nil => exact Nat.zero_le _
  | cons line lines ih =>
    rw [length_cons, room_cons]
    omega

/-- Every line is shorter than the room. -/
theorem units16_lt_room {lines : List (List Char)} {line : List Char} (h : line ∈ lines) :
    units16 line < room lines := by
  induction lines with
  | nil => cases h
  | cons first lines ih =>
    rw [room_cons]
    rcases mem_cons.1 h with rfl | h
    · omega
    · exact (ih h).trans_le (Nat.le_add_left _ _)

theorem units16_dropReturn_le (piece : List Char) : units16 (dropReturn piece) ≤ units16 piece := by
  obtain ⟨rest, hrest⟩ := dropReturn_starts_piece piece
  have hunits := congrArg units16 hrest
  rw [units16_append] at hunits
  omega

/-- The lines of a text take no more room than the text and one line feed. -/
theorem room_lines_le (cs : List Char) : room (lines cs) ≤ units16 cs + 1 := by
  have hpieces : ∀ ps : List (List Char),
      room (ps.map dropReturn) ≤ units16 (ps.flatMap fun piece => piece ++ ['\n']) := by
    intro ps
    induction ps with
    | nil => exact Nat.zero_le _
    | cons piece ps ih =>
      have hpiece := units16_dropReturn_le piece
      rw [map_cons, room_cons, flatMap_cons, units16_append, units16_append]
      have hfeed : units16 ['\n'] = 1 := rfl
      omega
  have hlines := hpieces (pieces '\n' cs)
  rwa [flatMap_pieces, units16_append] at hlines

end Text

/-- A line has no more lexemes than units. -/
theorem Lexeme.length_le_units16 {xs : List Lexeme} (h : ∀ x ∈ xs, x.text ≠ []) :
    xs.length ≤ units16 (chars xs) := by
  induction xs with
  | nil => exact Nat.zero_le _
  | cons x xs ih =>
    obtain ⟨hx, hxs⟩ := forall_mem_cons.1 h
    have hpos := Text.units16_pos hx
    have hrest := ih hxs
    rw [length_cons, chars_cons, Text.units16_append]
    omega

theorem Lexeme.length_tokensFrom (line column : Nat) (xs : List Lexeme) :
    (tokensFrom line column xs).length = xs.length := by
  induction xs generalizing column with
  | nil => rfl
  | cons x xs ih => rw [tokensFrom_cons, length_cons, length_cons, ih]

/-- There are no more tokens than room. -/
theorem LineState.length_tokensOfLines_le (s : LineState) (line : Nat) (lines : List (List Char)) :
    (s.tokensOfLines line lines).length ≤ Text.room lines := by
  induction lines generalizing s line with
  | nil => exact Nat.zero_le _
  | cons text lines ih =>
    have hscan := Lexeme.length_le_units16 fun x => s.text_ne_nil_of_mem_scan text
    rw [Lexeme.chars, s.scan_text] at hscan
    have hrest := ih (s.scan text).2 (line + 1)
    rw [tokensOfLines, tokens, length_append, length_append, Lexeme.length_tokensFrom,
      Text.room_cons, length_singleton]
    omega

/-! ### Tokens of moderate size -/

/-- Tokens that fill lines, with few enough columns and few enough of them. Each has at least one
column of its line, newlines apart. -/
structure Token.Moderate (lines : List (List Char)) (ts : List Token) : Prop where
  fill : Token.Fill lines ts
  columns : ∀ t ∈ ts, t.kind ≠ .newline →
    t.range.stop.line = t.range.start.line ∧ t.range.start.character < t.range.stop.character
  room : Text.room lines ≤ UInt32.size
  length : ts.length ≤ UInt32.size

/-- A text below the limit has moderate tokens. -/
theorem Document.moderate {text : String} (h : units16 text.toList < UInt32.size) :
    Token.Moderate (linesOf text) (tokensOf text) := by
  have hroom : Text.room (linesOf text) ≤ UInt32.size := (Text.room_lines_le text.toList).trans h
  refine ⟨fill_tokensOf text, fun t ht hkind => ?_, hroom, ?_⟩
  · rw [tokensOf_eq] at ht
    have hlt := (LineState.tiles_tokensOfLines {} 0 (linesOf text)).start_lt_stop ht
    obtain ⟨i, line, -, ⟨hstart, -⟩, hstop, -⟩ := onLine_of_mem_tokensOfLines ht hkind
    rw [Position.lt_def] at hlt
    omega
  · rw [tokensOf_eq]
    exact (LineState.length_tokensOfLines_le {} 0 (linesOf text)).trans hroom

namespace Token.Moderate

variable {lines : List (List Char)} {ts : List Token} (h : Token.Moderate lines ts)
include h

theorem units16_lt {line : List Char} (hline : line ∈ lines) : units16 line < UInt32.size :=
  (Text.units16_lt_room hline).trans_le h.room

/-- Columns of tokens fit in a word. -/
theorem column_lt {t : Token} (ht : t ∈ ts) (hkind : t.kind ≠ .newline) :
    t.range.stop.character < UInt32.size := by
  obtain ⟨line, hline, hle⟩ := (h.fill.onLine t ht hkind).2
  exact hle.trans_lt (h.units16_lt (mem_of_getElem? hline))

/-- The column behind the opening bracket of a block fits. -/
theorem behind_opening_lt {b : Block Data} (hb : b.Sits ts) :
    b.range.start.character + 1 < UInt32.size := by
  obtain ⟨t, ht, hstart⟩ := hb.enclosed.start
  have hkind : t.kind = .bracket b.contents.kind .opening := by simpa [ht] using hb.enclosed.opening
  have hne : t.kind ≠ .newline := by simp [hkind]
  have hmem := mem_of_getElem? ht
  have hcolumns := (h.columns t hmem hne).2
  have hfits := h.column_lt hmem hne
  rw [hstart]
  omega

end Token.Moderate

/-! ### Depth and tokens -/

/-- Two tokens of a block are its own, so there are fewer blocks around a position than tokens. -/
theorem Block.Sits.blockDepthAt_lt {ts : List Token} {b : Block Data} (h : b.Sits ts) {p : Position}
    (hparts : ∀ d ∈ b.contents.children, d.tokens.start + d.depthAt p < d.tokens.stop) :
    b.tokens.start + Data.blockDepthAt p b < b.tokens.stop := by
  have hlt := h.enclosed.start_lt_last
  -- a part is between the brackets, so it leaves room for both of them
  have hitems : ∀ ds : List Data, (∀ d ∈ ds, d ∈ b.contents.children) →
      Data.itemsDepthAt p ds + b.tokens.start + 2 ≤ b.tokens.stop := by
    intro ds
    induction ds with
    | nil =>
      intro _
      rw [Data.itemsDepthAt]
      omega
    | cons d ds ih =>
      intro hds
      obtain ⟨hd, hds⟩ := forall_mem_cons.1 hds
      have hwithin := h.row.within d.tokens (mem_map_of_mem hd)
      have hpart := hparts d hd
      have hrest := ih hds
      rw [Data.itemsDepthAt]
      omega
  have hchildren := hitems b.contents.children fun _ hd => hd
  rw [Data.blockDepthAt_children]
  split <;> omega

namespace Data

/-- A block nests no deeper than it has tokens. -/
theorem depthAt_lt {ts : List Token} (p : Position) (d : Data) (h : ∀ n ∈ d.nodes, n.Sits ts) :
    d.tokens.start + d.depthAt p < d.tokens.stop := by
  induction d using induction_on_parts with
  | h d ih =>
    have hsits := h d d.self_mem_nodes
    have hblock : ∀ b, d.innerBlock? = some b → b.tokens.start + blockDepthAt p b < b.tokens.stop :=
      fun b hb => (hsits.innerBlock hb).blockDepthAt_lt fun part hpart =>
        ih b hb part hpart fun n hn => h n (mem_nodes_of_mem_children hb hpart hn)
    rw [depthAt_innerBlock]
    have hlt := hsits.spans.lt
    cases hsits with
    | literal => exact hlt
    | string => exact hlt
    | unit => exact hlt
    | block => exact hblock _ rfl
    | payload _ _ hbehind _ _ => exact (Nat.add_lt_add_right hbehind _).trans (hblock _ rfl)

/-- The blocks of data sit on tokens. -/
theorem sits_of_mem_blocks {ts : List Token} {d : Data} (h : ∀ n ∈ d.nodes, n.Sits ts)
    {b : Block Data} (hb : b ∈ d.blocks) : b.Sits ts := by
  obtain ⟨n, hn, hinner⟩ := d.exists_of_mem_blocks b hb
  exact (h n hn).innerBlock hinner

/-- The depth in every block fits. -/
theorem blockDepthAt_lt_of_mem {ts : List Token} {d : Data} (h : ∀ n ∈ d.nodes, n.Sits ts)
    {b : Block Data} (hb : b ∈ d.blocks) (p : Position) : blockDepthAt p b < ts.length := by
  obtain ⟨n, hn, hinner⟩ := d.exists_of_mem_blocks b hb
  have hlt := n.depthAt_lt p fun m hm => h m (mem_nodes_trans hn hm)
  rw [depthAt_innerBlock, hinner, Option.map_some, Option.getD_some] at hlt
  obtain ⟨last, hlast, -⟩ := (h n hn).spans.stop
  have hlength := (List.getElem?_eq_some_iff.1 hlast).1
  omega

end Data

/-! ### The computation -/

namespace Layout

variable {lines : List (List Char)} {ts : List Token}

theorem getElem?_map_rows {β : Type} (f : Row → β) {r : Row} (hr : r ∈ rows lines ts) :
    ((rows lines ts).map f)[r.number]? = some (f r) := by
  obtain ⟨i, hi, rfl⟩ := mem_mapIdx.1 hr
  simp [rows, hi]

/-- To go through the lines by number is to go through the rows. -/
theorem Checked.collect?_zipIdx {β : Type} (f : Nat → List Char → Option (List β)) :
    collect? (fun x => f x.2 x.1) lines.zipIdx =
      collect? (fun r => f r.number r.text) (rows lines ts) := by
  have hrows : rows lines ts = lines.zipIdx.map fun x =>
      (⟨x.2, x.1, (lineTokens ts).getD x.2 []⟩ : Row) := mapIdx_eq_zipIdx_map
  have hmap : ∀ xs : List (List Char × Nat), collect? (fun x => f x.2 x.1) xs =
      collect? (fun r => f r.number r.text) (xs.map fun x =>
        (⟨x.2, x.1, (lineTokens ts).getD x.2 []⟩ : Row)) := by
    intro xs
    induction xs with
    | nil => rfl
    | cons x xs ih => rw [map_cons, collect?, collect?, ih]
  rw [hrows, hmap]

end Layout

namespace Token.Moderate

open Layout.Checked

variable {lines : List (List Char)} {ts : List Token} (h : Token.Moderate lines ts)
include h

/-- Rows are numbered and measured in words. -/
theorem row_lt {r : Layout.Row} (hr : r ∈ Layout.rows lines ts) :
    r.number < UInt32.size ∧ units16 r.text < UInt32.size := by
  obtain ⟨hlt, hget⟩ := List.getElem?_eq_some_iff.1 (Layout.getElem?_of_mem_rows hr)
  refine ⟨hlt.trans_le ((Text.length_le_room _).trans h.room), ?_⟩
  exact h.units16_lt (hget ▸ getElem_mem hlt)

/-- The check of all gaps fits. -/
theorem padding?_visible :
    padding? lines (ts.filter Layout.isVisible) =
      some (Layout.padding lines (ts.filter Layout.isVisible)) := by
  refine padding?_eq (fun line => h.units16_lt) (h.fill.run.ordered.sublist filter_sublist) ?_
  intro t ht
  obtain ⟨hmem, hkind⟩ := Layout.mem_and_ne_newline_of_isVisible ht
  exact ⟨(h.columns t hmem hkind).1, (h.columns t hmem hkind).2, h.column_lt hmem hkind⟩

variable {data : Data} (hsits : ∀ n ∈ data.nodes, n.Sits ts)
include hsits

/-- The number of blocks around a position can be counted, and then only the product may be too
wide. -/
theorem indentAt?_eq (settings : LayoutSettings) (p : Position) :
    indentAt? settings data p = word? (settings.indentWidth * data.depthAt p) := by
  have hdepth : depthAt? p data = some (data.depthAt p) := by
    refine depthAt?_eq data fun b hb => ⟨?_, ?_⟩
    · exact h.behind_opening_lt (Data.sits_of_mem_blocks hsits hb)
    · exact (Data.blockDepthAt_lt_of_mem hsits hb p).trans_le h.length
  rw [indentAt?, hdepth]
  rfl

/-- The layout is computed, unless an indent that is asked for is too wide. -/
theorem exactly_lint? (settings : LayoutSettings)
    (hstarts : (StringLines.ofTokens lines.length ts).starts =
      (Layout.rows lines ts).map Layout.Row.startsInString)
    (hends : (StringLines.ofTokens lines.length ts).ends =
      (Layout.rows lines ts).map Layout.Row.endsInString) :
    Exactly (∀ p ∈ Layout.asks lines ts data, settings.indentWidth * data.depthAt p < UInt32.size)
      (lint? settings lines ts data) (Layout.lint settings lines ts data) := by
  have hindent : ∀ p, Exactly (settings.indentWidth * data.depthAt p < UInt32.size)
      (indentAt? settings data p) (Layout.indentAt settings data p) := fun p => by
    rw [h.indentAt?_eq hsits settings p]
    exact .word _
  have htrailing : collect? (fun x => trailingBlanks?
      (StringLines.ofTokens lines.length ts).ends x.2 x.1)
      lines.zipIdx = some ((Layout.rows lines ts).flatMap Layout.trailingBlanks) := by
    rw [hends, @collect?_zipIdx lines ts _ (trailingBlanks? _)]
    exact collect?_of_forall fun r hr =>
      trailingBlanks?_eq (Layout.getElem?_map_rows _ hr) (h.row_lt hr).1 (h.row_lt hr).2
  have hindents : Exactly (∀ r ∈ Layout.rows lines ts, ∀ p ∈ Layout.rowAsks r,
        settings.indentWidth * data.depthAt p < UInt32.size)
      (collect? (fun x => indentation? (indentAt? settings data)
        (StringLines.ofTokens lines.length ts).starts x.2 x.1) lines.zipIdx)
      ((Layout.rows lines ts).flatMap (Layout.indentation settings data)) := by
    rw [hstarts, @collect?_zipIdx lines ts _ (indentation? _ _)]
    exact Exactly.collect fun r hr =>
      exactly_indentation? hindent (Layout.getElem?_map_rows _ hr) (h.row_lt hr).1 (h.row_lt hr).2
  have hbreaks : Exactly (∀ b ∈ data.blocks, ∀ p ∈ Layout.blockAsks ts.toArray b,
        settings.indentWidth * data.depthAt p < UInt32.size)
      (collect? (lineBreaks? (indentAt? settings data) ts) data.blocks)
      (data.blocks.flatMap (Layout.lineBreaks (Layout.indentAt settings data) ts.toArray)) :=
    Exactly.collect fun b hb =>
      exactly_lineBreaks? hindent (Data.sits_of_mem_blocks hsits hb).enclosed
  -- the rules run one behind the other, and only those on indents may stop the computation
  refine ((Exactly.of_eq htrailing).bind (hindents.bind
    ((Exactly.of_eq h.padding?_visible).bind (hbreaks.map _)))).congr ?_
  simp only [Layout.asks, true_and, forall_mem_append, forall_mem_flatMap]

end Token.Moderate

namespace Document

open Layout.Checked

/-- **The layout counts exactly, or an indent is too wide.** For a text with less than `2 ^ 32`
columns, to compute the layout with numbers of fixed size is to compute it with numbers of any size:
the findings are the same, and nothing but an indent that is too wide stops the computation. It is
stopped exactly if the product is too wide at a position for which an indent is asked. At every
position the indent is the exact product, unless the product does not fit into 32 bits. -/
theorem layout_is_exact_iff_indents_fit {text : String} {data : Data}
    (hdata : (parse text).data = some data) (hsize : units16 text.toList < UInt32.size)
    (settings : LayoutSettings) :
    let lines := (parse text).lines
    let tokens := (parse text).tokens
    Layout.Checked.lint? settings lines tokens data = Layout.lint? settings lines tokens data ∧
      (Layout.lint? settings lines tokens data = none ↔
        ∃ p ∈ Layout.asks lines tokens data,
          UInt32.size ≤ settings.indentWidth * data.depthAt p) ∧
      ∀ p, indentAt? settings data p = word? (settings.indentWidth * data.depthAt p) := by
  intro lines tokens
  have hmoderate := moderate hsize
  have hsits := sits_of_mem_nodes hdata
  obtain ⟨hstarts, hends⟩ := LineState.stringLines_eq {} (linesOf text)
  rw [← tokensOf_eq] at hstarts hends
  have hexactly := hmoderate.exactly_lint? hsits settings hstarts hends
  rw [← tokens_parse, ← lines_parse] at hexactly
  refine ⟨?_, Layout.lint?_eq_none_iff, fun p => ?_⟩
  · cases hlint : Layout.lint? settings lines tokens data with
    | none =>
      obtain ⟨p, hp, hwide⟩ := Layout.lint?_eq_none_iff.1 hlint
      exact hexactly.2 fun hfits => Nat.not_lt.2 hwide (hfits p hp)
    | some found =>
      obtain ⟨hfits, rfl⟩ := Layout.lint?_eq_some_iff.1 hlint
      exact hexactly.1 hfits
  · exact hmoderate.indentAt?_eq hsits settings p

/-- The blocks around the positions that two nested arrays ask for: three lines, and two closing
brackets behind an item. With indents of four columns the layout is computed, with indents of
`2 ^ 31` it is not. -/
theorem layout_is_exact_iff_indents_fit_of_nested_arrays :
    let document := parse "[\n[\n1]]"
    ∃ data, document.data = some data ∧
      (Layout.asks document.lines document.tokens data).map data.depthAt = [0, 1, 2, 0, 0] ∧
      (Layout.Checked.lint? {} document.lines document.tokens data).isSome = true ∧
      Layout.Checked.lint? { indentWidth := 2147483648 } document.lines document.tokens data =
        none := by
  intro document
  have hrun : units16 "[\n[\n1]]".toList < UInt32.size ∧
      ∃ data ∈ document.data,
        (Layout.asks document.lines document.tokens data).map data.depthAt = [0, 1, 2, 0, 0] ∧
        (Layout.lint? {} document.lines document.tokens data).isSome = true ∧
        (Layout.lint? { indentWidth := 2147483648 } document.lines document.tokens data).isNone =
          true := by decide +kernel
  obtain ⟨hsize, data, hdata, hdepths, hsome, hnone⟩ := hrun
  refine ⟨data, hdata, hdepths, ?_, ?_⟩
  · rw [(layout_is_exact_iff_indents_fit hdata hsize {}).1]
    exact hsome
  · rw [(layout_is_exact_iff_indents_fit hdata hsize { indentWidth := 2147483648 }).1]
    exact Option.isNone_iff_eq_none.1 hnone

/-- Two indents of `2 ^ 31` columns are too wide, even where no finding is kept. -/
theorem nested_arrays_break_analysis_off :
    (parse "[[\n1]]").data.isSome = true ∧
      (Analysis.run "x.txt" "[[\n1]]" {}
        { maxProblems := 0, layout := { indentWidth := 2147483648 } }).brokeOff = true := by
  decide +kernel

end Document

end TypedNotation
