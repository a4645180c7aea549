import TypedNotation.Proofs.TokenAccounts

/-!
# Places of findings

A finding is of use to an editor only if its range lies in the document and does not stop before it
starts, and if the edit that comes with it has both ends on lines that are there, no further than
these lines reach (`Diagnostic.Usable`).

The tokens of a document fill its lines (`Token.Fill`): they follow each other up to the end, and
only a newline reaches beyond its line. All ranges that the builder names are put together from
those of tokens, also when brackets do not match or a string is cut off, so what it finds is usable
(`Chunk.usable_of_mem_ofTokens`). Edits come later, in documents whose brackets match. There a comma
goes between two chunks that follow each other, and what is taken away is a key or a comma
(`Stand.usable_of_mem_contents`).
-/

namespace TypedNotation

open List Diagnostic Position Chunk Chunk.Builder

/-! ### Usable ranges -/

/-- A position is on a line and not behind its end. -/
def Position.OnLine (lines : List (List Char)) (p : Position) : Prop :=
  ∃ line, lines[p.line]? = some line ∧ p.character ≤ Text.units16 line

/-- A position on a line is on one of the lines. -/
theorem Position.OnLine.lt {lines : List (List Char)} {p : Position} (h : p.OnLine lines) :
    p.line < lines.length := by
  obtain ⟨line, hline, -⟩ := h
  exact (List.getElem?_eq_some_iff.1 hline).1

namespace Position

/-- Nothing comes before the origin. -/
theorem origin_le (p : Position) : .origin ≤ p := by
  simp only [le_def, origin]
  omega

theorem min_eq (a b : Position) : min a b = if a ≤ b then a else b := rfl

theorem max_eq (a b : Position) : max a b = if a ≤ b then b else a := rfl

theorem min_le_left (a b : Position) : min a b ≤ a := by
  rw [min_eq]
  split
  next => exact le_refl a
  next h => exact (le_total a b).resolve_left h

theorem le_max_left (a b : Position) : a ≤ max a b := by
  rw [max_eq]
  split
  next h => exact h
  next => exact le_refl a

theorem le_max_right (a b : Position) : b ≤ max a b := by
  rw [max_eq]
  split
  next => exact le_refl b
  next h => exact (le_total a b).resolve_left h

theorem max_le {a b c : Position} (ha : a ≤ c) (hb : b ≤ c) : max a b ≤ c := by
  rw [max_eq]
  split
  next => exact hb
  next => exact ha

end Position

namespace Range

variable {lines : List (List Char)} {r : Range}

/-- A range that goes forward, from the start of the first line on and up to the end of the last. -/
structure Within (lines : List (List Char)) (r : Range) : Prop where
  le : r.start ≤ r.stop
  start : .origin ≤ r.start
  stop : r.stop ≤ ⟨lines.length, 0⟩

/-- A range that goes forward between two positions on lines. -/
structure Fits (lines : List (List Char)) (r : Range) : Prop where
  le : r.start ≤ r.stop
  start : r.start.OnLine lines
  stop : r.stop.OnLine lines

/-- An ordered range that stops in the text is within it. -/
theorem within_of_le (hle : r.start ≤ r.stop) (hstop : r.stop ≤ ⟨lines.length, 0⟩) :
    r.Within lines :=
  ⟨hle, origin_le _, hstop⟩

/-- A range that fits a line is within the text. -/
theorem Fits.within (h : r.Fits lines) : r.Within lines := by
  refine within_of_le h.le ?_
  have hlt := h.stop.lt
  exact le_def.2 (.inl hlt)

/-- An empty range within the text. -/
theorem within_point {p : Position} (h : p ≤ ⟨lines.length, 0⟩) : (point p).Within lines :=
  within_of_le (le_refl p) h

theorem fits_point {p : Position} (h : p.OnLine lines) : (point p).Fits lines :=
  ⟨le_refl p, h, h⟩

theorem Within.point_stop (h : r.Within lines) : (point r.stop).Within lines :=
  within_point h.stop

theorem Within.point_start (h : r.Within lines) : (point r.start).Within lines :=
  within_point (le_trans h.le h.stop)

/-- The range around two ranges is within the text if they are. -/
theorem Within.combine {a b : Range} (ha : a.Within lines) (hb : b.Within lines) :
    (a.combine b).Within lines := by
  have hstart : (a.combine b).start ≤ a.stop :=
    le_trans (min_le_left _ _) ha.le
  exact within_of_le (le_trans hstart (le_max_left _ _))
    (max_le ha.stop hb.stop)

/-- The same for the range around many. -/
theorem within_foldl_combine {α : Type} {f : α → Range} {xs : List α} (hr : r.Within lines)
    (hxs : ∀ x ∈ xs, (f x).Within lines) :
    (xs.foldl (fun r x => r.combine (f x)) r).Within lines := by
  induction xs generalizing r with
  | nil => exact hr
  | cons x xs ih =>
    obtain ⟨hx, hxs⟩ := forall_mem_cons.1 hxs
    exact ih (hr.combine hx) hxs

end Range

namespace Diagnostic

/-- All ranges of a finding lie in the document, and those of its edit on lines. -/
structure Usable (lines : List (List Char)) (d : Diagnostic) : Prop where
  range : d.range.Within lines
  related : ∀ r ∈ d.related, r.range.Within lines
  fix : ∀ e ∈ d.fix, e.range.Within lines ∧ e.range.start.OnLine lines ∧ e.range.stop.OnLine lines

variable {lines : List (List Char)} {range : Range}

/-- An error within the text is usable. -/
theorem usable_error (h : range.Within lines) (kind : Kind) (message : String) :
    (error kind range message).Usable lines :=
  ⟨h, by simp [error], by simp [error]⟩

theorem usable_fatalError (h : range.Within lines) (kind : Kind) (message : String) :
    (fatalError kind range message).Usable lines :=
  ⟨h, by simp [fatalError], by simp [fatalError]⟩

theorem usable_warning (h : range.Within lines) (kind : Kind) (message : String) :
    (warning kind range message).Usable lines :=
  ⟨h, by simp [warning], by simp [warning]⟩

/-- A fix that fits a line keeps a finding usable. -/
theorem Usable.withFix {d : Diagnostic} (h : d.Usable lines) {e : Edit} (he : e.range.Fits lines) :
    (d.withFix e).Usable lines := by
  refine ⟨h.range, h.related, ?_⟩
  rintro _ ⟨⟩
  exact ⟨he.within, he.start, he.stop⟩

end Diagnostic

/-! ### Tokens that fill lines -/

/-- Tokens that follow each other up to the end of some lines. Only newlines reach beyond a line. -/
structure Token.Fill (lines : List (List Char)) (ts : List Token) : Prop where
  run : Token.Run ⟨0, 0⟩ ⟨lines.length, 0⟩ ts
  onLine : ∀ t ∈ ts, t.kind ≠ .newline →
    t.range.start.OnLine lines ∧ t.range.stop.OnLine lines

namespace Token.Fill

variable {lines : List (List Char)} {ts : List Token} (h : Fill lines ts) {n : TokenRange}
  {r : Range}
include h

/-- Tokens that fill a text stand in order. -/
theorem inOrder : InOrder ts :=
  ⟨_, _, h.run⟩

/-- Each token is within the text. -/
theorem within {t : Token} (ht : t ∈ ts) : t.range.Within lines :=
  Range.within_of_le (h.run.within t ht).2.1 (h.run.within t ht).2.2

/-- Each token but a newline fits a line. -/
theorem fits {t : Token} (ht : t ∈ ts) (hkind : t.kind ≠ .newline) : t.range.Fits lines :=
  ⟨(h.within ht).le, (h.onLine t ht hkind).1, (h.onLine t ht hkind).2⟩

/-- What spans some of the tokens is within the text. -/
theorem within_spans (hspans : Spans ts r n) : r.Within lines := by
  obtain ⟨hlt, ⟨a, ha, hra⟩, ⟨b, hb, hrb⟩⟩ := hspans
  refine Range.within_of_le ?_ ?_
  · rw [hra, hrb]
    exact le_trans (h.inOrder.start_le_stop ha) (h.inOrder.stop_le_stop ha hb (by omega))
  · rw [hrb]
    exact (h.within (mem_of_getElem? hb)).stop

/-- It fits the lines if it neither starts nor stops with a newline. -/
theorem fits_spans (hspans : Spans ts r n) (hstart : ∀ t, ts[n.start]? = some t → t.kind ≠ .newline)
    (hstop : ∀ t, ts[n.stop - 1]? = some t → t.kind ≠ .newline) : r.Fits lines := by
  obtain ⟨a, ha, hra⟩ := hspans.start
  obtain ⟨b, hb, hrb⟩ := hspans.stop
  refine ⟨(h.within_spans hspans).le, ?_, ?_⟩
  · rw [hra]
    exact (h.onLine a (mem_of_getElem? ha) (hstart a ha)).1
  · rw [hrb]
    exact (h.onLine b (mem_of_getElem? hb) (hstop b hb)).2

/-- From bracket to bracket both ends are on lines. -/
theorem fits_enclosed {kind : BlockKind} (henclosed : Enclosed ts kind r n) : r.Fits lines := by
  refine h.fits_spans henclosed.toSpans (fun t ht => ?_) fun t ht => ?_
  · have hkind : t.kind = .bracket kind .opening := by simpa [ht] using henclosed.opening
    simp [hkind]
  · have hkind : t.kind = .bracket kind .closing := by simpa [ht] using henclosed.closing
    simp [hkind]

end Token.Fill

namespace Document

/-- The tokens of a line are on that line. -/
theorem onLine_of_mem_tokensFrom {line : Nat} {xs : List Lexeme} {t : Token}
    (ht : t ∈ Lexeme.tokensFrom line 0 xs) :
    (t.range.start.line = line ∧ t.range.start.character ≤ Text.units16 (Lexeme.chars xs)) ∧
      t.range.stop.line = line ∧ t.range.stop.character ≤ Text.units16 (Lexeme.chars xs) := by
  have hwithin := (run_tokensFrom line 0 xs).within t ht
  simp only [le_def] at hwithin
  omega

/-- Every token but a newline is on one of the lines. -/
theorem onLine_of_mem_tokensOfLines {s : LineState} {line : Nat} {lines : List (List Char)}
    {t : Token} (ht : t ∈ s.tokensOfLines line lines) (hkind : t.kind ≠ .newline) :
    ∃ i text, lines[i]? = some text ∧
      (t.range.start.line = line + i ∧ t.range.start.character ≤ Text.units16 text) ∧
      t.range.stop.line = line + i ∧ t.range.stop.character ≤ Text.units16 text := by
  induction lines generalizing s line with
  | nil => cases ht
  | cons text lines ih =>
    rw [LineState.tokensOfLines, LineState.tokens] at ht
    rcases mem_append.1 ht with ht | ht
    · rcases mem_append.1 ht with ht | ht
      · have honLine := onLine_of_mem_tokensFrom ht
        rw [Lexeme.chars, s.scan_text] at honLine
        exact ⟨0, text, rfl, honLine⟩
      · rw [mem_singleton.1 ht] at hkind
        exact absurd rfl hkind
    · obtain ⟨i, text', hline, hrest⟩ := ih ht
      refine ⟨i + 1, text', hline, ?_⟩
      omega

/-- The tokens of a document fill its lines. -/
theorem fill_tokensOf (text : String) : Token.Fill (linesOf text) (tokensOf text) := by
  rw [tokensOf_eq]
  refine ⟨?_, fun t ht hkind => ?_⟩
  · have hrun := run_tokensOfLines {} 0 (linesOf text)
    rwa [Nat.zero_add] at hrun
  · obtain ⟨i, line, hline, ⟨hstart, hstartLe⟩, hstop, hstopLe⟩ :=
      onLine_of_mem_tokensOfLines ht hkind
    rw [Nat.zero_add] at hstart hstop
    exact ⟨⟨line, hstart ▸ hline, hstartLe⟩, ⟨line, hstop ▸ hline, hstopLe⟩⟩

end Document

/-! ### Building -/

namespace Chunk

variable {lines : List (List Char)} {ts : List Token}

/-- An open string is within the text. -/
theorem OpenString.Runs.within (hts : Token.Fill lines ts) {s : OpenString} (h : s.Runs ts) :
    s.range.Within lines := by
  induction h with
  | start ht _ => exact hts.within (mem_of_getElem? ht)
  | extend text _ ht _ ih => exact ih.combine (hts.within (mem_of_getElem? ht))

/-- A tag is within the text. -/
theorem Tag.Placed.within (hts : Token.Fill lines ts) {tag : Tag} (h : tag.Placed ts) :
    tag.range.Within lines := by
  obtain ⟨ht, -⟩ := h
  exact hts.within (mem_of_getElem? ht)

/-- Wherever a chunk comes from, its range lies in the document. -/
theorem Origin.within (hts : Token.Fill lines ts) {c : Chunk} (h : c.Origin ts) :
    c.range.Within lines := by
  have htoken {i : Nat} {t : Token} (ht : ts[i]? = some t) : t.range.Within lines :=
    hts.within (mem_of_getElem? ht)
  cases h with
  | literal ht _ => exact htoken ht
  | unterminated hs => exact hs.within hts
  | quoted hs ht _ => exact (hs.within hts).combine (htoken ht)
  | newline ht _ => exact htoken ht
  | comma ht _ => exact htoken ht
  | bareKey ht _ => exact htoken ht
  | keyWithColon ht _ _ hcolon _ => exact (htoken ht).combine (htoken hcolon)
  | unit htag => exact htag.within hts
  | @frame f t i hf ht =>
    have hblock : (f.bracket.range.combine t.range).Within lines :=
      (htoken hf.bracket).combine (htoken ht)
    unfold Frame.chunk
    dsimp only
    split
    next tag htag => exact ((hf.tag tag htag).1.within hts).combine hblock
    next => exact hblock

/-- Every chunk of a token stream, at any depth, was made from its tokens. -/
theorem origin_of_mem_nodes (ts : List Token) : ∀ c ∈ nodes (ofTokens ts).1, c.Origin ts :=
  fun c hc => (traced_finish ts).1.origin c (.inl hc)

/-- The nodes of a chunk are nodes of the list it is in. -/
theorem mem_nodes_of_mem {cs : List Chunk} {c d : Chunk} (hc : c ∈ cs)
    (hd : d = c ∨ d ∈ nodes c.children) : d ∈ nodes cs := by
  induction cs with
  | nil => cases hc
  | cons e cs ih =>
    rw [nodes_cons]
    rcases mem_cons.1 hc with rfl | hc
    · rcases hd with rfl | hd
      · exact mem_cons_self
      · exact mem_cons_of_mem _ (mem_append_left _ hd)
    · exact mem_cons_of_mem _ (mem_append_right _ (ih hc))

namespace Builder

variable {b : Builder} {t : Token} {d : Diagnostic}

/-- An invalid token is reported at its own place. -/
theorem usable_invalidToken (hts : Token.Fill lines ts) (ht : t ∈ ts) :
    (invalidToken t).Usable lines :=
  Diagnostic.usable_error (hts.within ht) _ _

/-- Findings about nesting are at the tokens they are about. -/
theorem usable_of_mem_findings (hts : Token.Fill lines ts) (ht : t ∈ ts) {outline : Outline}
    (houtline : ∀ bracket ∈ outline.map (·.2), bracket ∈ ts) (hd : d ∈ outline.findings t) :
    d.Usable lines := by
  rcases Outline.mem_findings_cases hd with rfl | ⟨message, rfl⟩ | ⟨bracket, hbracket, rfl⟩
  · exact usable_invalidToken hts ht
  · exact Diagnostic.usable_error (hts.within ht) _ _
  · refine ⟨hts.within ht, ?_, by simp [mismatch, fatalError]⟩
    simpa [mismatch] using hts.within (houtline bracket hbracket)

/-- What a token adds to the findings is usable. -/
theorem Traced.usable_of_mem_step (hts : Token.Fill lines ts) (h : Traced ts b.index b)
    (ht : ts[b.index]? = some t) (hd : d ∈ (b.step t).diagnostics) :
    d ∈ b.diagnostics ∨ d.Usable lines := by
  have hmem : t ∈ ts := mem_of_getElem? ht
  have houtline : ∀ bracket ∈ b.outline.map (·.2), bracket ∈ ts := by
    simp only [outline, Outline.ofFrames, map_map, mem_map]
    rintro _ ⟨f, hf, rfl⟩
    exact mem_of_getElem? (h.frames f hf).bracket
  obtain ⟨ds, hds, hcases⟩ := exists_diagnostics_step b t
  rw [hds] at hd
  refine (mem_append.1 hd).imp_right fun hd => ?_
  rcases hcases d hd with rfl | ⟨s, hpending, rfl⟩ | hd
  · exact usable_invalidToken hts hmem
  · have htraced := h.pending
    rw [hpending] at htraced
    cases htraced with
    | string hruns _ => exact Diagnostic.usable_error (hruns.within hts) _ _
  · exact usable_of_mem_findings hts hmem houtline hd

/-- All findings of a run of the builder are usable. -/
theorem Traced.usable_of_mem_run (hts : Token.Fill lines ts) {us : List Token}
    (h : Traced ts b.index b) (hdrop : ts.drop b.index = us) (hd : d ∈ (b.run us).diagnostics) :
    d ∈ b.diagnostics ∨ d.Usable lines := by
  induction us generalizing b with
  | nil => exact .inl hd
  | cons t us ih =>
    obtain ⟨ht, hrest⟩ := next_of_drop hdrop
    exact (ih (h.step ht) hrest hd).elim (h.usable_of_mem_step hts ht) .inr

/-- The place where the tokens end lies in the document. -/
theorem usable_tooEarly (hts : Token.Fill lines ts) (hlast : ∀ t, b.last = some t → t ∈ ts) :
    b.tooEarly.Usable lines := by
  refine usable_fatalError ?_ _ _
  unfold endOfInput
  split
  next t ht =>
    split
    · exact (hts.within (hlast t ht)).point_start
    · exact (hts.within (hlast t ht)).point_stop
  next => exact Range.within_point (origin_le _)

end Builder

/-- All that the builder finds in tokens that fill some lines is usable. -/
theorem usable_of_mem_ofTokens (hts : Token.Fill lines ts) {d : Diagnostic}
    (hd : d ∈ (ofTokens ts).2.diagnostics) : d.Usable lines := by
  obtain ⟨n, hfinish, -⟩ :=
    exists_diagnostics_finish (run {} ts) last_ne_none
  have hd : d ∈ (run {} ts).finish.diagnostics := hd
  rw [hfinish] at hd
  rcases mem_append.1 hd with hd | hd
  · exact (Traced.start.usable_of_mem_run hts rfl hd).resolve_left not_mem_nil
  · rw [(mem_replicate.1 hd).2]
    refine usable_tooEarly hts fun t ht => ?_
    rcases eq_nil_or_concat ts with rfl | ⟨us, u, rfl⟩
    · cases ht
    · rw [concat_eq_append, last_run_concat] at ht
      simp [Option.some.inj ht]

/-! ### Chunks on lines -/

/-- A key ends with its name or its colon. -/
theorem Origin.last_of_key {name : String} {nameRange r : Range} {n : TokenRange}
    (h : Origin ts (.key name nameRange r n)) :
    ∃ t, ts[n.stop - 1]? = some t ∧ (t.kind = .key ∨ t.kind = .colon) := by
  generalize hc : key name nameRange r n = c at h
  cases h with
  | bareKey ht hkind =>
    obtain ⟨-, -, -, rfl⟩ := key.inj hc
    exact ⟨_, ht, .inl hkind⟩
  | keyWithColon _ _ _ hcolon hkind =>
    obtain ⟨-, -, -, rfl⟩ := key.inj hc
    exact ⟨_, hcolon, .inr hkind⟩
  -- an open block becomes a block or an enum value
  | @frame f =>
    obtain ⟨kind, bracket, index, _ | tag, children⟩ := f <;> cases hc
  | _ => cases hc

/-- A comma comes from a token of that kind. -/
theorem Origin.kind_of_comma {r : Range} {n : TokenRange} (h : Origin ts (.separator false r n)) :
    ∃ t ∈ ts, t.kind = .comma ∧ t.range = r := by
  generalize hc : separator false r n = c at h
  cases h with
  | comma ht hkind =>
    obtain ⟨-, rfl, rfl⟩ := separator.inj hc
    exact ⟨_, mem_of_getElem? ht, hkind, rfl⟩
  | @frame f =>
    obtain ⟨kind, bracket, index, _ | tag, children⟩ := f <;> cases hc
  | _ => cases hc

/-- A chunk that is no newline has both ends on lines. -/
theorem Placed.fits (hts : Token.Fill lines ts) {c : Chunk} (h : c.Placed ts) (ho : c.Origin ts)
    (hrole : c.role ≠ .newline) : c.range.Fits lines := by
  have htoken {i : Nat} {t : Token} (ht : ts[i]? = some t) (hkind : t.kind ≠ .newline) :
      t.range.Fits lines :=
    hts.fits (mem_of_getElem? ht) hkind
  have hne {i : Nat} {kind : TokenKind} (hi : ts[i]?.map (·.kind) = some kind)
      (hkind : kind ≠ .newline) : ∀ t, ts[i]? = some t → t.kind ≠ .newline := by
    intro t ht
    rw [ht] at hi
    have heq : t.kind = kind := Option.some.inj hi
    rwa [heq]
  cases h with
  | literal ht hkind | unit ht hkind => exact htoken ht (by simp [hkind])
  | string hquoted =>
    exact hts.fits_spans hquoted.toSpans (hne hquoted.opening (by simp))
      (hne hquoted.closing (by simp))
  | @separator weak i t ht =>
    cases weak with
    | true => exact absurd rfl hrole
    | false =>
      obtain ⟨t', ht', hkind, hrange⟩ := ho.kind_of_comma
      have hfits := hts.fits ht' (by simp [hkind])
      rwa [hrange] at hfits
  | @key i stop t r ht hkind hspans =>
    -- blanks may stand before the colon, so the last token is not the next one
    obtain ⟨last, hlast, hlastKind⟩ := ho.last_of_key
    refine hts.fits_spans hspans (fun t' ht' => ?_) fun t' ht' => ?_
    · rw [← Option.some.inj (ht.symm.trans ht'), hkind]
      simp
    · rw [← Option.some.inj (hlast.symm.trans ht')]
      rcases hlastKind with hlastKind | hlastKind <;> simp [hlastKind]
  | block hb =>
    obtain ⟨henclosed, -, -⟩ := hb
    exact hts.fits_enclosed henclosed
  | payload ht hkind _ hb hspans =>
    obtain ⟨henclosed, -, -⟩ := hb
    refine hts.fits_spans hspans (fun t' ht' => ?_) (hne henclosed.closing (by simp))
    rw [← Option.some.inj (ht.symm.trans ht'), hkind]
    simp

end Chunk

/-! ### Reading -/

namespace Sequence

variable {lines : List (List Char)} {ts : List Token} {lo hi : Nat} {cs : List Chunk} {p : Place}
  {d : Diagnostic}

/-- Chunks of a block that are made from the tokens of some lines. -/
structure Stand (lines : List (List Char)) (cs : List Chunk) : Prop where
  within : ∀ c ∈ cs, c.range.Within lines
  fits : ∀ c ∈ cs, c.role ≠ .newline → c.range.Fits lines
  ordered : cs.Pairwise fun a b => a.range.stop ≤ b.range.start

/-- Chunks that come from tokens stand in the text. -/
theorem Stand.of_siblings (hts : Token.Fill lines ts) (hcs : Siblings ts lo hi cs)
    (horigin : ∀ c ∈ cs, c.Origin ts) : Stand lines cs := by
  refine ⟨fun c hc => (horigin c hc).within hts,
    fun c hc hrole => (hcs.placed c hc).fits hts (horigin c hc) hrole, ?_⟩
  have hrow := pairwise_map.1 hcs.row.ordered
  refine hrow.imp_of_mem fun {a b} ha hb hle => ?_
  exact (hcs.placed a ha).spans.stop_le_start hts.inOrder (hcs.placed b hb).spans hle

section Places

variable (h : Stand lines cs) (hp : p ∈ places cs)
include h hp

theorem Stand.usable_error (kind : Kind) (message : String) :
    (error kind p.chunk.range message).Usable lines :=
  Diagnostic.usable_error (h.within _ (mem_of_mem_places hp)) kind message

/-- A comma that is put in goes between the chunk and the one before it. -/
theorem Stand.fits_commaBefore (hrole : p.chunk.role ≠ .newline)
    (hhead : ∀ c ∈ p.before.head?, c.role ≠ .newline) :
    (commaBefore (items p.before).head? p.chunk).range.Fits lines := by
  have hchunk := h.fits _ (mem_of_mem_places hp) hrole
  have hcut := mem_places.1 hp
  cases hbefore : p.before with
  | nil => exact Range.fits_point hchunk.start
  | cons q qs =>
    rw [hbefore, reverse_cons, append_assoc, singleton_append] at hcut
    have hq : q ∈ cs := by simp [hcut]
    have hprevious := h.fits q hq (hhead q (by simp [hbefore]))
    have hle : q.range.stop ≤ p.chunk.range.start := by
      have hordered := (pairwise_append.1 (hcut ▸ h.ordered)).2.1
      exact rel_of_pairwise_cons hordered mem_cons_self
    rw [items, head?_cons]
    simp only [commaBefore]
    split
    · exact ⟨hle, hprevious.stop, hchunk.start⟩
    · exact Range.fits_point hprevious.stop

/-- A missing separator is reported where it belongs. -/
theorem Stand.usable_expectedSeparator (hrole : p.chunk.role ≠ .newline)
    (hhead : ∀ c ∈ p.before.head?, c.role ≠ .newline) :
    (expectedSeparator (items p.before).head? p.chunk).Usable lines :=
  (h.usable_error hp _ _).withFix (h.fits_commaBefore hp hrole hhead)

/-- A chunk that is taken away. -/
theorem Stand.usable_delete (hd : d.Usable lines) (hrole : p.chunk.role ≠ .newline) :
    (d.withFix (.delete p.chunk.range)).Usable lines :=
  hd.withFix (h.fits _ (mem_of_mem_places hp) hrole)

/-- A needless comma is reported where it is. -/
theorem Stand.usable_needless (hd : d ∈ p.needless) : d.Usable lines := by
  unfold Place.needless at hd
  split at hd
  next hcomma =>
    rw [mem_singleton.1 hd]
    have hwarning := usable_warning (h.within _ (mem_of_mem_places hp))
    exact h.usable_delete hp (hwarning _ _) (by simp [hcomma.1])
  next => cases hd

/-- All findings in a list are usable. -/
theorem Stand.usable_inList (hd : d ∈ p.inList) : d.Usable lines := by
  unfold Place.inList at hd
  split at hd
  next hrole =>
    rw [mem_singleton.1 hd]
    exact h.usable_delete hp (h.usable_error hp _ _) (by simp [hrole])
  next hrole =>
    obtain ⟨hnearest, hd⟩ := mem_ite_nil_right.1 hd
    rw [mem_singleton.1 hd]
    refine h.usable_expectedSeparator hp (by simp [hrole]) fun c hc hnewline => ?_
    -- the chunk before is a key or a value, as the nearest one that is no key is a value
    obtain ⟨rest, hbefore⟩ := head?_eq_some_iff.1 hc
    rw [hbefore, nearest_cons, hnewline] at hnearest
    simp at hnearest
  next hrole =>
    split at hd
    · rw [mem_singleton.1 hd]
      exact h.usable_delete hp (h.usable_error hp _ _) (by simp [hrole])
    · exact h.usable_needless hp hd
  next => cases hd

/-- A misplaced key is reported where it is. -/
theorem Stand.usable_misplacedKey (hrole : p.chunk.role = .key) (hd : d ∈ p.misplacedKey) :
    d.Usable lines := by
  unfold Place.misplacedKey at hd
  split at hd
  next => cases hd
  next =>
    rw [mem_singleton.1 hd]
    exact h.usable_error hp _ _
  next hstanding =>
    rw [mem_singleton.1 hd]
    refine h.usable_expectedSeparator hp (by simp [hrole]) fun c hc hnewline => ?_
    -- behind a newline nothing is complete
    obtain ⟨rest, hbefore⟩ := head?_eq_some_iff.1 hc
    rw [hbefore, standing, hnewline] at hstanding
    dsimp only at hstanding
    split at hstanding <;> cases hstanding

/-- All findings in a dict are usable. -/
theorem Stand.usable_inDict (hd : d ∈ p.inDict) : d.Usable lines := by
  have hone {kind : Kind} {message : String}
      (hd : d ∈ [error kind p.chunk.range message]) : d.Usable lines := by
    rw [mem_singleton.1 hd]
    exact h.usable_error hp _ _
  unfold Place.inDict at hd
  split at hd
  next hrole =>
    rcases mem_append.1 hd with hd | hd
    · exact h.usable_misplacedKey hp hrole hd
    · obtain ⟨k, -, rfl⟩ := mem_map.1 hd
      exact h.usable_error hp _ _
  next => exact hone hd
  next => cases hd
  next => exact hone hd
  next => exact hone hd
  next hrole _ =>
    split at hd
    · rw [mem_singleton.1 hd]
      exact h.usable_delete hp (h.usable_error hp _ _) (by simp [hrole])
    · exact h.usable_needless hp hd
  next => exact h.usable_needless hp hd

end Places

/-- A missing last value is reported behind the chunks. -/
theorem Stand.usable_missingLast (h : Stand lines cs) :
    (missingLast (items cs)).Usable lines := by
  refine Diagnostic.usable_error ?_ _ _
  rw [items_eq, getLast?_map]
  cases hlast : cs.getLast? with
  | none => exact Range.within_point (origin_le _)
  | some c => exact (h.within c (mem_of_getLast? hlast)).point_stop

/-- What is found in a block is usable if what is found in its chunks is. -/
theorem Stand.usable_of_mem_contents (h : Stand lines cs)
    (hinner : ∀ c ∈ cs, ∀ d ∈ c.problems, d.Usable lines) (kind : BlockKind)
    (hd : d ∈ (contents kind (items cs)).2) : d.Usable lines := by
  have hlist : ∀ d ∈ (list (items cs)).2, d.Usable lines := by
    intro d hd
    rw [list_eq] at hd
    obtain ⟨p, hp, hd⟩ := mem_flatMap.1 hd
    rcases mem_append.1 hd with hd | hd
    · exact h.usable_inList hp hd
    · exact hinner _ (mem_of_mem_places hp) d hd
  cases kind with
  | array => exact hlist d hd
  | tuple => exact hlist d hd
  | dict =>
    change d ∈ (dict (items cs)).2 at hd
    rw [dict_eq] at hd
    rcases mem_append.1 hd with hd | hd
    · obtain ⟨p, hp, hd⟩ := mem_flatMap.1 hd
      rcases mem_append.1 hd with hd | hd
      · exact h.usable_inDict hp hd
      · exact hinner _ (mem_of_mem_places hp) d hd
    · obtain ⟨-, hd⟩ := mem_ite_nil_right.1 hd
      rw [mem_singleton.1 hd]
      exact h.usable_missingLast

end Sequence

namespace Chunk

variable {lines : List (List Char)} {ts : List Token}

mutual

/-- What is found in a chunk is usable. -/
theorem usable_of_mem_problems (hts : Token.Fill lines ts) : ∀ c : Chunk, c.Placed ts →
    (∀ n ∈ nodes c.children, n.Origin ts) → ∀ d ∈ c.problems, d.Usable lines
  | .block b, hplaced, horigin, d, hd => by
    cases hplaced with
    | block hb => exact usable_of_mem_blockData hts b hb horigin d hd
  | .enum _ _ (some b) _ _, hplaced, horigin, d, hd => by
    cases hplaced with
    | payload _ _ _ hb _ => exact usable_of_mem_blockData hts b hb horigin d hd
  | .enum _ _ none _ _, _, _, _, hd | .key .., _, _, _, hd | .value .., _, _, _, hd
  | .separator .., _, _, _, hd => by simp [problems, data?] at hd

/-- All findings inside a block are usable. -/
theorem usable_of_mem_blockData (hts : Token.Fill lines ts) : ∀ b : Bracketed Chunk,
    BlockPlaced ts b → (∀ n ∈ nodes b.children, n.Origin ts) → ∀ d ∈ (blockData b).2, d.Usable lines
  | ⟨kind, children, r, n⟩, hb, horigin, d, hd => by
    obtain ⟨-, hrow, hchildren⟩ := hb
    have hstand : Sequence.Stand lines children := .of_siblings hts ⟨hrow, hchildren⟩
      fun c hc => horigin c (mem_nodes_of_mem hc (.inl rfl))
    exact hstand.usable_of_mem_contents (usable_of_mem_children hts children hchildren horigin) kind
      hd

/-- All findings inside chunks are usable. -/
theorem usable_of_mem_children (hts : Token.Fill lines ts) : ∀ cs : List Chunk,
    (∀ c ∈ cs, c.Placed ts) → (∀ n ∈ nodes cs, n.Origin ts) → ∀ c ∈ cs, ∀ d ∈ c.problems,
    d.Usable lines
  | [], _, _, c, hc => by cases hc
  | first :: rest, hplaced, horigin, c, hc => by
    obtain ⟨hfirst, hrest⟩ := forall_mem_cons.1 hplaced
    rw [nodes_cons, forall_mem_cons, forall_mem_append] at horigin
    rcases mem_cons.1 hc with hc | hc
    · rw [hc]
      exact usable_of_mem_problems hts first hfirst horigin.2.1
    · exact usable_of_mem_children hts rest hrest horigin.2.2 c hc

end

end Chunk

namespace Data

variable {lines : List (List Char)} {chunks : List Chunk} {earlier : Report}

/-- All findings at the top level are usable. -/
theorem usable_of_mem_topLevelReport (hearlier : ∀ d ∈ earlier.diagnostics, d.Usable lines)
    (hchunks : ∀ c ∈ chunks, c.range.Within lines) :
    ∀ d ∈ (topLevelReport chunks earlier).diagnostics, d.Usable lines := by
  refine forall_mem_append.2 ⟨hearlier, fun d hd => ?_⟩
  obtain ⟨c, hc, hd⟩ := mem_flatMap.1 hd
  have hrange := hchunks c hc
  unfold illegalTopLevel at hd
  split at hd
  · rw [mem_singleton.1 hd]
    exact usable_fatalError hrange _ _
  · rw [mem_singleton.1 hd]
    exact usable_fatalError hrange _ _
  · cases hd

/-- The range around chunks is within the text. -/
theorem within_coveringRange {cs : List Chunk} (h : ∀ c ∈ cs, c.range.Within lines) :
    (coveringRange cs).Within lines := by
  cases cs with
  | nil => exact Range.within_point (origin_le _)
  | cons c cs =>
    obtain ⟨hc, hcs⟩ := forall_mem_cons.1 h
    exact Range.within_foldl_combine hc hcs

/-- Reading a document adds usable findings. What is inside of its value is looked at only if
nothing fatal was found. -/
theorem usable_of_mem_ofChunks (hearlier : ∀ d ∈ earlier.diagnostics, d.Usable lines)
    (hchunks : ∀ c ∈ chunks, c.range.Within lines)
    (hproblems : earlier.canContinue = true → ∀ c ∈ chunks, ∀ d ∈ c.problems, d.Usable lines) :
    ∀ d ∈ (ofChunks chunks earlier).2.diagnostics, d.Usable lines := by
  have htop := usable_of_mem_topLevelReport hearlier hchunks
  have hfatal {range : Range} (hrange : range.Within lines) (kind : Kind)
      (message : String) :
      ∀ d ∈ ((topLevelReport chunks earlier).add (.fatalError kind range message)).diagnostics,
        d.Usable lines := by
    refine forall_mem_append.2 ⟨htop, fun d hd => ?_⟩
    rw [mem_singleton.1 hd]
    exact usable_fatalError hrange kind message
  unfold ofChunks
  dsimp only
  split
  · exact htop
  next hcontinue =>
    split
    next => exact hfatal (Range.within_point (origin_le _)) _ _
    next c hvalues =>
      have hc : c ∈ chunks := (mem_filter.1 (hvalues ▸ mem_singleton_self c)).1
      split
      next data problems hdata =>
        refine forall_mem_append.2 ⟨htop, fun d hd => ?_⟩
        have hopen : earlier.canContinue = true := by
          simp only [Report.canContinue_merge, Bool.not_eq_true', Bool.not_eq_false,
            Bool.and_eq_true] at hcontinue
          exact hcontinue.1
        refine hproblems hopen c hc d ?_
        rw [Chunk.problems, hdata]
        exact hd
      next => exact htop
    next first rest _ hvalues =>
      refine hfatal (within_coveringRange fun c hc => hchunks c ?_) _ _
      exact (mem_filter.1 (hvalues ▸ mem_cons_of_mem first hc)).1

end Data

/-- All that is found while a document is read is usable. -/
theorem Document.usable_of_mem_report {text : String} {d : Diagnostic}
    (hd : d ∈ (parse text).report.diagnostics) : d.Usable (linesOf text) := by
  have hts := fill_tokensOf text
  have horigin := origin_of_mem_nodes (tokensOf text)
  have hreport := congrArg Prod.snd (data_report_parse text)
  dsimp only at hreport
  rw [hreport] at hd
  refine Data.usable_of_mem_ofChunks (fun d => usable_of_mem_ofTokens hts) (fun c hc => ?_)
    (fun hcontinue c hc => ?_) d hd
  · exact (horigin c (mem_nodes_of_mem hc (.inl rfl))).within hts
  · -- nothing is fatal, so all brackets match and the chunks are where their tokens are
    exact usable_of_mem_problems hts c (placed_of_mem_ofTokens hcontinue c hc)
      fun n hn => horigin n (mem_nodes_of_mem hc (.inr hn))

end TypedNotation
