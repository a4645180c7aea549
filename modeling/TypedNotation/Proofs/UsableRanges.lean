import TypedNotation.Proofs.FindingPlaces
import TypedNotation.Proofs.FixPlaces

/-!
# Reported ranges are usable

Whatever is found in a document, an editor can show it and can make the edit that comes with it
(`Analysis.findings_are_usable`). What is found in reading a document is so by
`Proofs.FindingPlaces`.

The layout names parts of lines, and the gaps between two tokens in order of which neither is a
newline (`Token.Fill.fits_between`). A check names places of the data (`Data.Shows`), and these are
where their tokens are. Where elements of a tuple are lacking, the place is what is left of the
block, and it goes forward also if nothing is left.
-/

namespace TypedNotation

open List Document Position
open Token (Fill)

/-! ### Layout -/

namespace Layout

variable {lines : List (List Char)} {ts : List Token} {d : Diagnostic}

theorem usable_warn {range : Range} (h : range.Fits lines) (kind : Diagnostic.Kind)
    (message text : String) : (warn kind range message text).Usable lines :=
  (Diagnostic.usable_warning h.within kind message).withFix h

/-- Two columns of one line. -/
theorem fits_onLine {n a b : Nat} {text : List Char} (hline : lines[n]? = some text) (hab : a ≤ b)
    (hb : b ≤ Text.units16 text) : (Range.onLine n a b).Fits lines :=
  ⟨le_def.2 (.inr ⟨rfl, hab⟩), ⟨text, hline, hab.trans hb⟩, ⟨text, hline, hb⟩⟩

theorem getElem?_of_mem_rows {r : Row} (hr : r ∈ rows lines ts) :
    lines[r.number]? = some r.text := by
  obtain ⟨i, hi, rfl⟩ := mem_mapIdx.1 hr
  exact getElem?_eq_getElem hi

theorem usable_of_mem_trailingBlanks {r : Row} (hr : r ∈ rows lines ts)
    (hd : d ∈ trailingBlanks r) : d.Usable lines := by
  obtain ⟨-, hd⟩ := mem_ite_nil_left.1 hd
  rw [mem_singleton.1 hd]
  have htrim := congrArg Text.units16 (Text.trimEnd_append_trail r.text)
  rw [Text.units16_append] at htrim
  exact usable_warn (fits_onLine (getElem?_of_mem_rows hr) (by omega) le_rfl) _ _ _

theorem usable_of_mem_indentation {settings : LayoutSettings} {data : Data} {r : Row}
    (hr : r ∈ rows lines ts) (hd : d ∈ indentation settings data r) : d.Usable lines := by
  obtain ⟨-, hd⟩ := mem_ite_nil_left.1 hd
  rw [mem_singleton.1 hd]
  have hindent := congrArg Text.units16 (Text.indent_append_trimStart r.text)
  rw [Text.units16_append] at hindent
  exact usable_warn (fits_onLine (getElem?_of_mem_rows hr) (Nat.zero_le _) (by omega)) _ _ _

end Layout

/-- What is between two tokens of which neither is a newline. -/
theorem Token.Fill.fits_between {lines : List (List Char)} {ts : List Token} (hts : Fill lines ts)
    {a b : Token} (ha : a ∈ ts ∧ a.kind ≠ .newline) (hb : b ∈ ts ∧ b.kind ≠ .newline)
    (hle : a.range.stop ≤ b.range.start) : Range.Fits lines ⟨a.range.stop, b.range.start⟩ :=
  ⟨hle, (hts.onLine a ha.1 ha.2).2, (hts.onLine b hb.1 hb.2).1⟩

namespace Layout

variable {lines : List (List Char)} {ts : List Token} {d : Diagnostic} (hts : Fill lines ts)

theorem mem_and_ne_newline_of_isVisible {t : Token} (ht : t ∈ ts.filter isVisible) :
    t ∈ ts ∧ t.kind ≠ .newline := by
  obtain ⟨hmem, hvisible⟩ := mem_filter.1 ht
  refine ⟨hmem, fun hkind => ?_⟩
  simp [isVisible, hkind] at hvisible

include hts

theorem usable_of_mem_padding (hd : d ∈ padding lines (ts.filter isVisible)) : d.Usable lines := by
  obtain ⟨front, a, b, c, back, hfilter, -, hd⟩ := exists_of_mem_padding hd
  have hordered : (a :: b :: c :: back).Pairwise fun a b => a.range.stop ≤ b.range.start :=
    (pairwise_append.1 (hfilter ▸ hts.run.ordered.sublist filter_sublist)).2.1
  have hvisible {t : Token} (ht : t ∈ a :: b :: c :: back) : t ∈ ts ∧ t.kind ≠ .newline :=
    mem_and_ne_newline_of_isVisible (hfilter ▸ mem_append_right front ht)
  have ha := hvisible mem_cons_self
  have hb := hvisible (mem_cons_of_mem a mem_cons_self)
  have hc := hvisible (t := c) (by simp)
  obtain ⟨hfirst, hrest⟩ := pairwise_cons.1 hordered
  rcases cases_of_mem_gapsAround hd with ⟨-, -, rfl⟩ | ⟨-, -, rfl⟩
  · exact usable_warn (hts.fits_between ha hb (hfirst b mem_cons_self)) _ _ _
  · exact usable_warn (hts.fits_between hb hc (rel_of_pairwise_cons hrest mem_cons_self)) _ _ _

theorem usable_of_mem_lineBreaks {indent : Position → Nat} {block : Block Data}
    (hblock : Enclosed ts block.contents.kind block.range block.tokens)
    (hd : d ∈ lineBreaks indent ts.toArray block) : d.Usable lines := by
  have hlacks := lacks_of_mem_lineBreaks hblock hd
  have hordered := hts.run.ordered.sublist (filter_sublist (p := isItem))
  have hvisible {t : Token} (ht : t ∈ ts.filter isItem) : t ∈ ts ∧ t.kind ≠ .newline :=
    mem_and_ne_newline_of_isVisible (mem_filter.2
      ⟨mem_of_mem_filter ht, (Bool.and_eq_true_iff.1 (mem_filter.1 ht).2).1⟩)
  generalize ts.filter isItem = us at hlacks hordered hvisible
  cases hlacks with
  | closing hpair _ _ _ =>
    subst hpair
    exact usable_warn (hts.fits_between (hvisible (by simp)) (hvisible (by simp))
      (rel_of_pairwise_cons (pairwise_append.1 hordered).2.1 mem_cons_self)) _ _ _
  | @opening front comments back opening anchor first hitems _ _ hanchor _ _ =>
    rw [← cons_append] at hitems
    subst hitems
    have hmem : anchor ∈ opening :: comments := mem_of_getLast? hanchor
    have hle : anchor.range.stop ≤ first.range.start :=
      (pairwise_append.1 (pairwise_append.1 hordered).2.1).2.2 anchor hmem first mem_cons_self
    exact usable_warn (hts.fits_between (hvisible (mem_append_right _ (mem_append_left _ hmem)))
      (hvisible (by simp)) hle) _ _ _

/-- All that is found in the layout of a document is usable. -/
theorem usable_of_mem_lint {settings : LayoutSettings} {data : Data}
    (hsits : ∀ n ∈ data.nodes, n.Sits ts) (hd : d ∈ lint settings lines ts data) :
    d.Usable lines := by
  unfold lint at hd
  rcases mem_append.1 hd with hd | hd
  · rcases mem_append.1 hd with hd | hd
    · rcases mem_append.1 hd with hd | hd
      · obtain ⟨r, hr, hd⟩ := mem_flatMap.1 hd
        exact usable_of_mem_trailingBlanks hr hd
      · obtain ⟨r, hr, hd⟩ := mem_flatMap.1 hd
        exact usable_of_mem_indentation hr hd
    · exact usable_of_mem_padding hts hd
  · obtain ⟨block, hblock, hd⟩ := mem_flatMap.1 hd
    obtain ⟨n, hn, hinner⟩ := data.exists_of_mem_blocks block hblock
    exact usable_of_mem_lineBreaks hts ((hsits n hn).innerBlock hinner).enclosed hd

end Layout

/-! ### Checking -/

section Check

variable {lines : List (List Char)} {ts : List Token} (hts : Fill lines ts)
include hts

/-- What is left of a block behind its last element. -/
theorem Block.Sits.within_lacking {b : Block Data} (h : b.Sits ts) {last : Option Position}
    (hlast : ∀ p ∈ last, p ≤ ⟨lines.length, 0⟩) :
    Range.Within lines ⟨last.getD (b.range.contract 1 1).start,
      max (b.range.contract 1 1).stop (last.getD (b.range.contract 1 1).start)⟩ := by
  have hfits := hts.fits_enclosed h.enclosed
  have hlt := hfits.start.lt
  have hstart : last.getD (b.range.contract 1 1).start ≤ ⟨lines.length, 0⟩ := by
    cases last with
    | none => exact le_def.2 (.inl hlt)
    | some p => exact hlast p rfl
  have hcontract : (b.range.contract 1 1).stop ≤ b.range.stop :=
    le_def.2 (.inr ⟨rfl, Nat.sub_le _ _⟩)
  exact Range.within_of_le (le_max_right _ _)
    (max_le (le_trans hcontract hfits.within.stop) hstart)

/-- What a check shows about a block lies in the document. -/
theorem Block.Sits.within_of_shows {b : Block Data} (h : b.Sits ts)
    (hchildren : ∀ c ∈ b.contents.children, c.Sits ts) {range : Range} (hshows : b.Shows range) :
    range.Within lines := by
  have hwithin : ∀ c ∈ b.contents.children, c.range.Within lines :=
    fun c hc => hts.within_spans (hchildren c hc).spans
  cases hshows with
  | whole => exact hts.within_spans h.enclosed.toSpans
  | @key entries keyRanges name _ hcontents hmem =>
    obtain ⟨i, hkey⟩ := (h.keys entries keyRanges hcontents).key name range hmem
    obtain ⟨t, ht, -, -, rfl⟩ := hkey.token
    exact hts.within (mem_of_getElem? ht)
  | @extra items more first n hcontents hdrop =>
    have hitems : ∀ c ∈ first :: more, c.range.Within lines := by
      intro c hc
      refine hwithin c ?_
      rw [hcontents]
      exact mem_of_mem_drop (hdrop ▸ hc)
    obtain ⟨hfirst, hmore⟩ := forall_mem_cons.1 hitems
    exact Range.within_foldl_combine hfirst hmore
  | @lacking items start hcontents hstart =>
    subst hstart
    refine h.within_lacking hts fun p hp => ?_
    obtain ⟨c, hc, rfl⟩ := Option.map_eq_some_iff.1 hp
    refine (hwithin c ?_).stop
    rw [hcontents]
    exact mem_of_getLast? hc

/-- All that is found by checking data is usable, if the data is where the tokens are. -/
theorem Data.usable_of_mem_check {data : Data} (hsits : ∀ n ∈ data.nodes, n.Sits ts) {r : Resolver}
    {spec : TypeSpec} {d : Diagnostic} (hd : d ∈ (data.check r spec).diagnostics) :
    d.Usable lines := by
  have hmade : (data.check r spec).Made True _ :=
    data.made_check (fun h => absurd trivial h) spec fun h => absurd trivial h
  obtain ⟨kind, range, message, rfl, ⟨n, hn, hshows⟩, -⟩ := hmade.exists_eq_error hd
  refine Diagnostic.usable_error ?_ kind message
  have hnode := hsits n hn
  cases hshows with
  | whole => exact hts.within_spans hnode.spans
  | tag tag tagRange payload _ tokens =>
    obtain ⟨t, ht, -, -, rfl⟩ := (hnode.enumSits hts.inOrder).tag
    exact hts.within (mem_of_getElem? ht)
  | block hb hblock =>
    refine (hnode.innerBlock hb).within_of_shows hts (fun c hc => hsits c ?_) hblock
    exact mem_nodes_trans hn (mem_nodes_of_mem_children hb hc c.self_mem_nodes)

end Check

/-! ### Analysing -/

namespace Analysis

/-- **Reported ranges are usable.** Under every name and index and with all settings, each finding
of a document has ranges that go forward and lie between the start of the first line and the end of
the last, its own and those related to it. If an edit comes with it, the range of the edit is such a
one too, and both of its ends are on lines and not behind their ends. -/
theorem findings_are_usable (name text : String) (index : TypeIndex) (settings : Settings) :
    ∀ d ∈ (run name text index settings).diagnostics, d.Usable (linesOf text) := by
  intro d hd
  have hts := fill_tokensOf text
  have hmem := mem_of_mem_take hd
  rcases mem_append.1 hmem with hd | hd
  · rcases mem_append.1 hd with hd | hd
    · exact usable_of_mem_report hd
    · obtain ⟨data, hdata, hd⟩ := mem_lint_of_mem_layoutFindings hd
      rw [lines_parse, tokens_parse] at hd
      exact Layout.usable_of_mem_lint hts (sits_of_mem_nodes hdata) hd
  · unfold typeFindings at hd
    split at hd
    next hdata => exact Data.usable_of_mem_check hts (sits_of_mem_nodes hdata) hd
    next =>
      rw [mem_singleton.1 hd]
      exact Diagnostic.usable_error (Range.within_point (origin_le _)) _ _
    next => cases hd

/-- In `{a: 1 b: 2}` a comma is missing, and it goes into the gap between the two properties. -/
theorem findings_are_usable_of_missing_comma :
    let text := "\x7ba: 1 b: 2\x7d"
    ∃ d ∈ (run "a.txt" text {} {}).diagnostics,
      d.fix = some ⟨.onLine 0 5 6, ", "⟩ ∧ d.Usable (linesOf text) := by
  intro text
  have hfound : ∃ d ∈ (run "a.txt" text {} {}).diagnostics, d.fix = some ⟨.onLine 0 5 6, ", "⟩ := by
    decide +kernel
  obtain ⟨d, hd, hfix⟩ := hfound
  exact ⟨d, hd, hfix, findings_are_usable "a.txt" text {} {} d hd⟩

end Analysis

end TypedNotation
