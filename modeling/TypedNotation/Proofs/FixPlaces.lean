import TypedNotation.Proofs.CellsOfText
import TypedNotation.Proofs.LayoutMeasure

/-!
# Where fixes are made

The findings of a document speak of tokens, and a plan speaks of cells. Token by token the cells
show what the document has (`Cell.Shows`), blank tokens left out (`Token.shown`), so a place among
the tokens is a place among the cells (`Document.Cut.exists_cells`).

On a document without errors, the edits of three rules are ones that the layout asks for
(`Cell.Allows`): a needless comma has an edge of a line or of a block beside it
(`allows_of_needlessIn`); the tokens around a gap at a separator are neighbours on a line
(`allows_of_mem_padding`); and a line is broken directly in front of a closing bracket, or behind an
opening one and the comments that follow it (`allows_of_mem_lineBreaks`). Blanks at the edges of a
line are another matter (`Proofs.LinePlaces`).
-/

namespace TypedNotation

open List Layout Token Cell.Spot

namespace Token.Displays

variable {t : Token} {line column : Nat} {x : Lexeme} {starts ends : Prop}

theorem start_eq (h : t.Displays line column x starts ends) (hstarts : starts) :
    t.range.start = ⟨line, column⟩ := by
  rw [← h.start hstarts, ← h.startLine]

theorem stop_eq (h : t.Displays line column x starts ends) (hends : ends) :
    t.range.stop = ⟨line, column + Text.units16 x.text⟩ := by
  rw [← h.stop hends, ← h.stopLine]

end Token.Displays

namespace Cell

variable {line column : Nat} {cells : List Cell} {ts us : List Token} {t : Token}

theorem kinds_append (a b : List Cell) : kinds (a ++ b) = kinds a ++ kinds b :=
  map_append

theorem place_append (p : Position) (a b : List Cell) : place p (a ++ b) = place (place p a) b :=
  foldl_append

/-- Behind some of the cells, the others show the tokens behind. -/
theorem Shows.split {front behind : List Cell} (h : Shows line column (front ++ behind) ts) :
    ∃ before after, ts = before ++ after ∧ kinds front = before.map (·.kind) ∧
      Shows (place ⟨line, column⟩ front).line (place ⟨line, column⟩ front).character behind
        after := by
  induction front generalizing line column ts with
  | nil => exact ⟨[], ts, rfl, rfl, h⟩
  | cons c front ih =>
    generalize hcells : c :: front ++ behind = cells at h
    cases h with
    | nil => cases hcells
    | @line _ _ gap ret rest t ts ht hrest =>
      obtain ⟨rfl, rfl⟩ := List.cons.inj hcells
      obtain ⟨before, after, rfl, hkinds, hshows⟩ := ih hrest
      refine ⟨t :: before, after, rfl, ?_, hshows⟩
      rw [kinds, map_cons, map_cons, ← kinds, hkinds]
      exact congrArg (· :: _) (congrArg Mark.kind ht).symm
    | @core _ _ gap x y rest t ts ht hrest =>
      obtain ⟨rfl, hbehind⟩ := List.cons.inj hcells
      rw [← hbehind] at hrest
      obtain ⟨before, after, rfl, hkinds, hshows⟩ := ih hrest
      refine ⟨t :: before, after, rfl, ?_, hshows⟩
      rw [kinds, map_cons, map_cons, ← kinds, hkinds]
      exact congrArg (· :: _) ht.kind.symm

/-- The kinds of cells and of tokens are the same. -/
theorem Shows.kinds_eq (h : Shows line column cells ts) : kinds cells = ts.map (·.kind) := by
  rw [← append_nil cells] at h
  obtain ⟨before, after, rfl, hkinds, hshows⟩ := h.split
  cases hshows
  simpa using hkinds

/-- Behind some of the tokens, the others are shown by the cells behind. -/
theorem Shows.drop (h : Shows line column cells (ts ++ us)) :
    ∃ front behind, cells = front ++ behind ∧ kinds front = ts.map (·.kind) ∧
      Shows (place ⟨line, column⟩ front).line (place ⟨line, column⟩ front).character behind us := by
  have hlength : cells.length = (ts ++ us).length := by
    simpa [kinds] using congrArg List.length h.kinds_eq
  rw [← take_append_drop ts.length cells] at h
  obtain ⟨before, after, heq, hkinds, hshows⟩ := h.split
  have hbefore : ts.length = before.length := by
    have := congrArg List.length hkinds
    simp only [kinds, length_map, length_take, hlength, length_append] at this
    omega
  obtain ⟨rfl, rfl⟩ := append_inj heq hbefore
  exact ⟨_, _, (take_append_drop ..).symm, hkinds, hshows⟩

/-- A token that ends no line is not in front of the line that its cells start on. -/
theorem Shows.le_line (h : Shows line column cells ts) (ht : t ∈ ts) (hkind : t.kind ≠ .newline) :
    line ≤ t.range.start.line := by
  induction h with
  | nil => cases ht
  | line hu _ ih =>
    rcases mem_cons.1 ht with rfl | ht
    · exact absurd (congrArg Mark.kind hu) hkind
    · exact Nat.le_of_succ_le (ih ht)
  | core hu _ ih =>
    rcases mem_cons.1 ht with rfl | ht
    · exact hu.startLine.ge
    · exact ih ht

/-- What is known behind some cells. -/
theorem Reads.drop {s : Scanner} {spot : Spot} {front behind : List Cell}
    (h : Reads s (front ++ behind)) (ht : Tracks s s spot) :
    ∃ s', Reads s' behind ∧ Tracks s' s' (spot.run (kinds front)) := by
  induction front generalizing s spot with
  | nil => exact ⟨s, h, ht⟩
  | cons c front ih =>
    obtain ⟨gap, stop⟩ := c
    cases stop with
    | line ret =>
      cases h with
      | line _ _ hrest => exact ih hrest ht.line
    | core x =>
      obtain ⟨next, htakes, -, hrest⟩ := Reads.of_core h
      exact ih hrest (ht.core htakes rfl id)

/-- Two tokens in a row on a line are shown by two cells in a row, and what is between them is the
gap of the second cell. -/
theorem Shows.adjacent {a b : Token} (h : Shows line column cells (a :: b :: ts))
    (ha : a.kind ≠ .newline) (hb : b.kind ≠ .newline) {s : Scanner} (hreads : Reads s cells) :
    ∃ g₀ x₀ g₁ x₁ rest, cells = ⟨g₀, .core x₀⟩ :: ⟨g₁, .core x₁⟩ :: rest ∧
      a.kind = x₀.category.tokenKind ∧ b.kind = x₁.category.tokenKind ∧
      (⟨a.range.stop, b.range.start⟩ : Range) =
        gapRange ⟨g₁, .core x₁⟩ (after ⟨g₀, .core x₀⟩ ⟨line, column⟩) := by
  cases h with
  | line ht _ => exact absurd (congrArg Mark.kind ht) ha
  | @core _ _ g₀ x₀ y rest _ _ hx₀ hrest =>
    have hpos := Text.units16_pos hreads.stop_text_ne_nil
    cases hrest with
    | line ht _ => exact absurd (congrArg Mark.kind ht) hb
    | @core _ _ g₁ x₁ _ _ _ _ hx₁ _ =>
      refine ⟨g₀, x₀, g₁, x₁, _, rfl, hx₀.kind, hx₁.kind, ?_⟩
      rw [hx₀.stop_eq (.inl rfl), hx₁.start_eq (.inl (by simp only [Stop.text] at hpos; omega))]
      rfl

/-- No line ends in front of a token on the line that its cells start on. -/
theorem Shows.no_newline (h : Shows line column cells (us ++ t :: ts)) (hkind : t.kind ≠ .newline)
    (hline : t.range.start.line ≤ line) : ∀ u ∈ us, u.kind ≠ .newline := by
  induction us generalizing line column cells with
  | nil => exact fun u hu => nomatch hu
  | cons u us ih =>
    cases h with
    | line _ hrest =>
      have := hrest.le_line (mem_append_right us mem_cons_self) hkind
      omega
    | core hu hrest =>
      intro v hv
      rcases mem_cons.1 hv with rfl | hv
      · rw [hu.kind]
        exact Category.tokenKind_ne_newline _
      · exact ih hrest hline v hv

/-- A token but a newline is on one line. -/
theorem Shows.line_eq (h : Shows line column cells ts) (ht : t ∈ ts) (hkind : t.kind ≠ .newline) :
    t.range.stop.line = t.range.start.line := by
  induction h with
  | nil => cases ht
  | line hu _ ih =>
    rcases mem_cons.1 ht with rfl | ht
    · exact absurd (congrArg Mark.kind hu) hkind
    · exact ih ht
  | core hu _ ih =>
    rcases mem_cons.1 ht with rfl | ht
    · rw [hu.startLine, hu.stopLine]
    · exact ih ht

/-! ### Spots behind tokens -/

namespace Spot

/-- Comments leave it as it is whether a block or a line has just started. -/
theorem run_ignored {ks : List TokenKind} (h : ∀ k ∈ ks, k = .ignored) (s : Spot) :
    (s.run ks).fresh = s.fresh ∧ (s.run ks).opened = s.opened := by
  induction ks generalizing s with
  | nil => exact ⟨rfl, rfl⟩
  | cons k ks ih =>
    rw [h k mem_cons_self]
    exact ih (fun k hk => h k (mem_cons_of_mem _ hk)) _

/-- Tokens that open a line leave a fresh spot. -/
theorem fresh_of_opensLine (h : Chunk.OpensLine ts) (s : Spot) :
    (s.run (ts.map (·.kind))).fresh = true := by
  obtain ⟨front, y, gap, rfl, hgap, hy⟩ := h
  rw [map_append, map_cons, run_append, run_cons,
    (run_ignored (by simpa using hgap) _).1]
  obtain hy | ⟨kind, hy⟩ := hy <;> rw [hy] <;> rfl

/-- The depth is the number of open brackets. -/
theorem depth_run (s : Spot) (ts : List Token) :
    (s.run (ts.map (·.kind))).depth = s.depth + balance ts := by
  induction ts generalizing s with
  | nil => simp
  | cons t ts ih =>
    rw [map_cons, run_cons, ih, balance_cons, next, Int.add_assoc]

end Spot

/-- Cells end a line if their tokens do. -/
theorem ends_of_endsLine (hkinds : kinds cells = ts.map (·.kind)) (h : Chunk.EndsLine ts) :
    ends cells = true := by
  obtain ⟨gap, y, back, rfl, hgap, hy⟩ := h
  induction gap generalizing cells with
  | nil =>
    cases cells with
    | nil => cases hkinds
    | cons c cells =>
      have hc : c.stop.mark.kind = y.kind := (List.cons.inj hkinds).1
      rw [ends, hc]
      obtain hy | ⟨kind, hy⟩ := hy <;> rw [hy]
  | cons t gap ih =>
    cases cells with
    | nil => cases hkinds
    | cons c cells =>
      have hc : c.stop.mark.kind = .ignored :=
        (List.cons.inj hkinds).1.trans (hgap t mem_cons_self)
      rw [ends, hc]
      exact ih (List.cons.inj hkinds).2 fun u hu => hgap u (mem_cons_of_mem _ hu)

end Cell

namespace Token

/-- Tokens without those that are blank. -/
def shown (ts : List Token) : List Token :=
  ts.filter fun t => !t.isBlank

theorem shown_append (ts us : List Token) : shown (ts ++ us) = shown ts ++ shown us :=
  filter_append ..

theorem shown_cons {t : Token} (h : t.kind ≠ .ignored) (ts : List Token) :
    shown (t :: ts) = t :: shown ts :=
  filter_cons_of_pos (by simp [isBlank, isIgnored, h])

/-- Only blank tokens are left out. -/
theorem mem_shown {t : Token} {ts : List Token} (h : t ∈ ts) (hkind : t.kind ≠ .ignored) :
    t ∈ shown ts :=
  mem_filter.2 ⟨h, by simp [isBlank, isIgnored, hkind]⟩

end Token

namespace Chunk

variable {ts : List Token}

/-- A bracket has the kind of a block and a side. -/
theorem exists_of_isBracket {t : Token} (h : isBracket t = true) :
    ∃ kind side, t.kind = .bracket kind side := by
  unfold isBracket at h
  split at h
  · exact ⟨_, _, ‹_›⟩
  · cases h

/-- Leaving out blanks keeps a line opened. -/
theorem OpensLine.shown (h : OpensLine ts) : OpensLine (shown ts) := by
  obtain ⟨front, y, gap, rfl, hgap, hy⟩ := h
  have hne : y.kind ≠ .ignored := by obtain hy | ⟨kind, hy⟩ := hy <;> simp [hy]
  refine ⟨shown front, y, shown gap, ?_, fun t ht => hgap t (mem_of_mem_filter ht), hy⟩
  rw [shown_append, shown_cons hne]

/-- Leaving out blanks keeps a line ended. -/
theorem EndsLine.shown (h : EndsLine ts) : EndsLine (shown ts) := by
  obtain ⟨gap, y, back, rfl, hgap, hy⟩ := h
  have hne : y.kind ≠ .ignored := by obtain hy | ⟨kind, hy⟩ := hy <;> simp [hy]
  refine ⟨shown gap, y, shown back, ?_, fun t ht => hgap t (mem_of_mem_filter ht), hy⟩
  rw [shown_append, shown_cons hne]

end Chunk

namespace Category

theorem eq_comma_of_tokenKind {k : Category} (h : k.tokenKind = .comma) : k = .comma := by
  cases k <;> first | rfl | cases h

theorem eq_colon_of_tokenKind {k : Category} (h : k.tokenKind = .colon) : k = .colon := by
  cases k <;> first | rfl | cases h

end Category

namespace Config

variable {c d : Config} {m : Mark}

/-- The grammar takes no invalid token. -/
theorem kind_ne_invalid_of_step (h : c.step m = some d) (unknown : Bool) :
    m.kind ≠ .invalid unknown := by
  intro hm
  rw [step, if_neg (by simp [hm])] at h
  cases hwait : c.wait <;> simp [hwait, hm, read, readInString] at h

/-- What is put says what is waited for. -/
theorem wait_of_put {read : Sequence.Level → Option Sequence.Level} {wait : Wait}
    (h : c.put read wait = some d) : d.wait = wait := by
  obtain ⟨l, -, rfl⟩ := Option.map_eq_some_iff.1 h
  rfl

/-- Only a key lets a colon be awaited. -/
theorem phase_of_read (h : c.read m = some d) (hwait : d.wait = .colon) : d.level.phase = .key := by
  have hput {read : Sequence.Level → Option Sequence.Level} {wait : Wait}
      (h : c.put read wait = some d)
      (hne : wait ≠ .colon) : d.level.phase = .key :=
    absurd ((wait_of_put h).symm.trans hwait) hne
  unfold read at h
  split at h
  next =>
    obtain rfl := Option.some.inj h
    cases hwait
  next => exact hput h (by simp)
  next =>
    obtain ⟨-, h⟩ := Option.ite_none_right_eq_some.1 h
    exact hput h (by simp)
  next =>
    obtain ⟨l, hl, rfl⟩ := Option.map_eq_some_iff.1 h
    obtain ⟨-, hl⟩ := Option.ite_none_right_eq_some.1 hl
    rw [← Option.some.inj hl]
  next => exact hput h (by simp)
  next => exact hput h (by simp)
  next kind _ =>
    split at h
    · obtain rfl := Option.some.inj h
      cases hwait
    · obtain ⟨e, -, rfl⟩ := Option.map_eq_some_iff.1 h
      cases hwait
  next kind _ =>
    unfold leave at h
    split at h
    · cases h
    · obtain ⟨-, h⟩ := Option.ite_none_right_eq_some.1 h
      obtain rfl := Option.some.inj h
      cases hwait
  all_goals cases h

/-- A colon is waited for behind a key only. -/
theorem phase_of_step (h : c.step m = some d) (hc : c.wait = .colon → c.level.phase = .key)
    (hwait : d.wait = .colon) : d.level.phase = .key := by
  unfold step at h
  split at h
  · obtain rfl := Option.some.inj h
    exact hc hwait
  split at h
  · exact phase_of_read h hwait
  · exact phase_of_read h hwait
  · split at h
    · obtain rfl := Option.some.inj h
      cases hwait
    · exact phase_of_read h hwait
  next hquote =>
    have hsame : d = c ∨ d = { c with wait := .nothing } := by
      unfold readInString at h
      split at h <;> simp_all
    rcases hsame with rfl | rfl
    · exact hc hwait
    · cases hwait

/-- The colon of a key is awaited behind the key. -/
theorem phase_of_wait {ms : List Mark} (h : c.run ms = some d)
    (hc : c.wait = .colon → c.level.phase = .key) : d.wait = .colon → d.level.phase = .key := by
  induction ms generalizing c with
  | nil =>
    obtain rfl := Option.some.inj h
    exact hc
  | cons m ms ih =>
    obtain ⟨e, he, hrest⟩ := Option.bind_eq_some_iff.1 h
    exact ih hrest (phase_of_step he hc)

/-- No separator follows another. -/
theorem not_separator_of_step {ms : List Mark} {m' : Mark} {d' : Config} (h : run {} ms = some c)
    (hd : c.step m = some d) (hd' : d.step m' = some d') (hm : m.kind = .comma ∨ m.kind = .colon) :
    m'.kind ≠ .comma ∧ m'.kind ≠ .colon := by
  have hafter : d.wait = .nothing ∧ d.level.phase ≠ .fresh ∧ d.level.phase ≠ .item := by
    rcases hm with hm | hm
    · obtain ⟨-, -, rfl⟩ := step_comma hd hm
      simp
    · have hwait : c.wait = .colon := by
        cases hwait : c.wait <;> simp [step, hwait, hm, read, readInString] at hd ⊢
      have hphase := phase_of_wait h (by rintro ⟨⟩) hwait
      rw [step, if_neg (by simp [hm]), hwait] at hd
      obtain rfl := Option.some.inj ((if_pos hm).symm.trans hd)
      simp [hphase]
  constructor
  · intro hm'
    rcases (step_comma hd' hm').2.1 with hphase | hphase
    · exact hafter.2.1 hphase
    · exact hafter.2.2 hphase
  · intro hm'
    simp [step, hafter.1, hm', read] at hd'

end Config

namespace Layout

/-- What is found at separators is found at one of them. -/
theorem exists_of_mem_padding {lines : List (List Char)} {ts : List Token} {d : Diagnostic}
    (h : d ∈ padding lines ts) :
    ∃ front a b c back, ts = front ++ a :: b :: c :: back ∧ isSeparator b = true ∧
      d ∈ gapsAround lines a b c := by
  induction ts using padding.induct with
  | case1 a b c back ih =>
    rw [padding] at h
    rcases mem_append.1 h with h | h
    · split at h
      · exact ⟨[], a, b, c, back, rfl, ‹_›, h⟩
      · cases h
    · obtain ⟨front, a', b', c', back', heq, hrest⟩ := ih h
      exact ⟨a :: front, a', b', c', back', by rw [heq]; rfl, hrest⟩
  | case2 ts hts =>
    unfold padding at h
    split at h
    · exact absurd rfl (hts _ _ _ _)
    · cases h

/-- A finding is about the gap before a token or behind it. -/
theorem cases_of_mem_gapsAround {lines : List (List Char)} {a b c : Token} {d : Diagnostic}
    (h : d ∈ gapsAround lines a b c) :
    (a.range.stop.line = b.range.start.line ∧ a.range.stop ≠ b.range.start ∧
        d = gap lines ⟨a.range.stop, b.range.start⟩ 0) ∨
      c.range.start.line = b.range.start.line ∧
        c.range.start.character ≠ b.range.stop.character + 1 ∧
        d = gap lines ⟨b.range.stop, c.range.start⟩ 1 := by
  simp only [gapsAround, mem_append, mem_ite_nil_right, Bool.and_eq_true, decide_eq_true_eq,
    bne_iff_ne, mem_singleton, and_assoc] at h
  exact h

/-- The tokens that line breaks are looked for among. -/
def isItem (t : Token) : Bool :=
  isVisible t && !isInvalid t

/-- A line break is missing between the last item of a block and its closing bracket, or between the
first item and the opening bracket with the comments behind it. -/
inductive Lacks (indent : Position → Nat) (kind : BlockKind) (ts : List Token) : Diagnostic → Prop
  | closing {front back : List Token} {last closing : Token} {stop : Position}
      (hts : ts = front ++ last :: closing :: back) (hkind : closing.kind = .bracket kind .closing)
      (hstop : stop = closing.range.stop) (hline : last.range.stop.line = stop.line) :
      Lacks indent kind ts (lineBreak ⟨last.range.stop, closing.range.start⟩ (indent stop))
  | opening {front comments back : List Token} {opening anchor first : Token}
      (hts : ts = front ++ opening :: (comments ++ first :: back))
      (hkind : opening.kind = .bracket kind .opening)
        (hcomments : ∀ t ∈ comments, t.isIgnored = true)
      (hanchor : (opening :: comments).getLast? = some anchor) (hfirst : first.isIgnored = false)
      (hline : first.range.start.line = opening.range.start.line) :
      Lacks indent kind ts
        (lineBreak ⟨anchor.range.stop, first.range.start⟩ (indent first.range.start))

section

variable {indent : Position → Nat} {kind : BlockKind} {ts front inner back : List Token}
  {opening closing : Token} {range : Range} {d : Diagnostic}

/-- A break is missing in front of a closing bracket. -/
theorem lacks_of_mem_breakBeforeClosing (hts : ts = front ++ opening :: (inner ++ closing :: back))
    (hkind : closing.kind = .bracket kind .closing) (hstop : range.stop = closing.range.stop)
    (h : d ∈ breakBeforeClosing indent range inner closing) : Lacks indent kind ts d := by
  unfold breakBeforeClosing at h
  split at h
  next last hlast =>
    obtain ⟨hline, hd⟩ := mem_ite_nil_right.1 h
    obtain ⟨init, rfl⟩ := getLast?_eq_some_iff.1 hlast
    have hpair : ts = front ++ opening :: init ++ last :: closing :: back := by simpa using hts
    exact mem_singleton.1 hd ▸ .closing hpair hkind hstop hline
  next => cases h

/-- A break is missing behind an opening bracket. -/
theorem lacks_of_mem_breakAfterOpening (hts : ts = front ++ opening :: (inner ++ closing :: back))
    (hkind : opening.kind = .bracket kind .opening) (hstart : range.start = opening.range.start)
    (h : d ∈ breakAfterOpening indent range opening inner) : Lacks indent kind ts d := by
  unfold breakAfterOpening at h
  split at h
  next first hfirst =>
    obtain ⟨hline, hd⟩ := mem_ite_nil_right.1 h
    obtain ⟨rest, hrest⟩ := head?_eq_some_iff.1 hfirst
    have hinner : inner.takeWhile isIgnored ++ first :: rest = inner := by
      rw [← hrest, takeWhile_append_dropWhile]
    have hvisible : first.isIgnored = false := by
      simpa [hrest] using head?_dropWhile_not isIgnored inner
    generalize hcomments : inner.takeWhile isIgnored = comments at hinner hd
    rw [← hinner, append_assoc, cons_append] at hts
    exact mem_singleton.1 hd ▸ .opening hts hkind
      (fun t ht => mem_takeWhile_imp (hcomments ▸ ht)) getLast?_cons hvisible (hstart ▸ hline)
  next => cases h

/-- The tokens around and between two brackets. -/
theorem eq_append_of_getElem? {i j : Nat} (ho : ts[i]? = some opening) (hc : ts[j]? = some closing)
    (hij : i < j) : ts = ts.take i ++
      opening :: ((ts.toArray.extract (i + 1) j).toList ++ closing :: ts.drop (j + 1)) := by
  obtain ⟨_, ho⟩ := List.getElem?_eq_some_iff.1 ho
  obtain ⟨_, hc⟩ := List.getElem?_eq_some_iff.1 hc
  have hbehind := take_append_drop (j - (i + 1)) (ts.drop (i + 1))
  rw [drop_drop, Nat.add_sub_cancel' (Nat.succ_le_of_lt hij)] at hbehind
  rw [← ho, ← hc, getElem_cons_drop, extract_toArray, extract_eq_take_drop, hbehind,
    getElem_cons_drop, take_append_drop]

/-- What is found at the brackets of a block. -/
theorem lacks_of_mem_lineBreaks {block : Block Data}
    (hblock : Enclosed ts kind block.range block.tokens)
    (h : d ∈ lineBreaks indent ts.toArray block) : Lacks indent kind (ts.filter isItem) d := by
  obtain ⟨⟨-, ⟨opening, hopening, hstart⟩, ⟨closing, hclosing, hstop⟩⟩, hkindOpening,
    hkindClosing⟩ := hblock
  rw [hopening, Option.map_some, Option.some.injEq] at hkindOpening
  rw [hclosing, Option.map_some, Option.some.injEq] at hkindClosing
  simp only [lineBreaks, getElem?_toArray, hopening, hclosing] at h
  obtain ⟨hlt, h⟩ := mem_ite_nil_right.1 h
  simp only [Bool.and_eq_true, decide_eq_true_eq] at hlt
  have hbracket {t : Token} {side : Side} (ht : t.kind = .bracket kind side) : isItem t = true := by
    simp [isItem, isVisible, isInvalid, isBlank, isIgnored, ht]
  have hts := congrArg (List.filter isItem) (eq_append_of_getElem? hopening hclosing hlt.2)
  rw [filter_append, filter_cons_of_pos (hbracket hkindOpening), filter_append,
    filter_cons_of_pos (hbracket hkindClosing)] at hts
  rcases mem_append.1 h with hd | hd
  · exact lacks_of_mem_breakBeforeClosing hts hkindClosing hstop hd
  · exact lacks_of_mem_breakAfterOpening hts hkindOpening hstart hd

end

/-- A line break with an indent, as characters. -/
theorem newline_append_spaces (n : Nat) :
    "\n" ++ spaces n = String.ofList ('\n' :: List.replicate n ' ') := by
  rw [spaces_eq, ← String.toList_inj]
  simp

end Layout

namespace Document

open Cell

namespace Cut

variable {text : String} {cells : List Cell} {ts us mid : List Token} {a b t : Token} {width : Nat}

/-- A place among the tokens is a place among the cells. -/
theorem exists_cells (h : Cut text cells) (hts : shown (tokensOf text) = ts ++ us) :
    ∃ front behind s, cells = front ++ behind ∧ kinds front = ts.map (·.kind) ∧
      Shows (place .origin front).line (place .origin front).character behind us ∧
      Reads s behind ∧ Tracks s s (run {} (kinds front)) := by
  have hshows : Shows 0 0 cells (ts ++ us) := hts ▸ h.shows
  obtain ⟨front, behind, rfl, hkinds, hbehind⟩ := hshows.drop
  have hstart : Tracks {} {} {} := ⟨rfl, by simp, by simp, by simp⟩
  obtain ⟨s, hreads, htracks⟩ := h.reads.drop hstart
  exact ⟨front, behind, s, rfl, hkinds, hbehind, hreads, htracks⟩

/-! ### Commas -/

/-- A needless comma may be taken away. -/
theorem allows_of_needlessIn (h : Cut text cells) {d : Diagnostic}
    (hd : Chunk.NeedlessIn (tokensOf text) d) {e : Edit} (he : d.fix = some e) :
    Allows width {} .origin cells e := by
  obtain ⟨front, t, back, hts, hkind, rfl, hedge⟩ := hd
  obtain rfl : Edit.delete t.range = e := Option.some.inj he
  have hshown : shown (tokensOf text) = shown front ++ t :: shown back := by
    rw [hts, shown_append, shown_cons (by simp [hkind])]
  obtain ⟨before, behind, s, rfl, hkinds, hshows, hreads, -⟩ := h.exists_cells hshown
  cases hshows with
  | line ht _ => cases hkind.symm.trans (congrArg Mark.kind ht)
  | @core _ _ gap x y rest _ _ ht hrest =>
    obtain ⟨next, htakes, -, -⟩ := hreads.of_core
    have hx : x.category = .comma := Category.eq_comma_of_tokenKind (ht.kind.symm.trans hkind)
    have hcomment : x.category.isComment = false := by rw [hx]; rfl
    have hcell : ∃ blocks, Stop.core x = .core ⟨[','], .comma, blocks⟩ := by
      refine ⟨x.blocks, congrArg Stop.core ?_⟩
      rw [← hx, ← (htakes.next_of_comma hx).2.1]
    refine allows_of_needless ⟨hcell, hedge.imp (fun hopens => ?_) fun hends => ?_⟩ ?_
    · rw [hkinds]
      exact fresh_of_opensLine hopens.shown _
    · exact ends_of_endsLine hrest.kinds_eq hends.shown
    · have hrange : (⟨t.range.start, t.range.stop⟩ : Range) =
          stopRange ⟨gap, .core x⟩ (place .origin before) := by
        rw [ht.start_eq (.inr hcomment), ht.stop_eq (.inr hcomment)]
        rfl
      rw [← hrange]
      rfl

/-! ### Gaps on a line -/

/-- A gap between two tokens in a row on a line may be replaced where the layout asks for it. -/
theorem allows_between (h : Cut text cells) (hts : shown (tokensOf text) = ts ++ a :: b :: us)
    (ha : a.kind ≠ .newline) (hb : b.kind ≠ .newline) {f : Fill} {new : List Char}
    (hnew : f.new? = some new)
    (hf : ∀ gap x, b.kind = x.category.tokenKind →
      b.range.start = ⟨a.range.stop.line, a.range.stop.character + Text.units16 gap⟩ →
      (run {} (ts.map (·.kind) ++ [a.kind])).Fills width ⟨gap, .core x⟩ f) :
    Allows width {} .origin cells ⟨⟨a.range.stop, b.range.start⟩, String.ofList new⟩ := by
  obtain ⟨front, behind, s, rfl, hkinds, hshows, hreads, -⟩ := h.exists_cells hts
  obtain ⟨g₀, x₀, g₁, x₁, rest, rfl, hx₀, hx₁, hrange⟩ := hshows.adjacent ha hb hreads
  have hfills := hf g₁ x₁ hx₁ <| by
    obtain ⟨hstop, hstart⟩ := Range.mk.inj hrange
    rw [hstart, hstop]
  have hkinds' : ts.map (·.kind) ++ [a.kind] = kinds (front ++ [⟨g₀, .core x₀⟩]) := by
    rw [kinds_append, hkinds, hx₀]
    rfl
  rw [append_cons]
  refine allows_of_fills (hkinds' ▸ hfills) ?_
  rw [hnew, place_append, hrange]
  rfl

/-- Tokens that can be seen and are on one line follow each other among all tokens but the blank
ones. -/
theorem exists_shown (h : Cut text cells) {front back : List Token}
    (hts : (tokensOf text).filter isVisible = front ++ a :: (mid ++ b :: back))
    (hline : b.range.start.line = a.range.stop.line) :
    ∃ ts us, shown (tokensOf text) = ts ++ a :: (mid ++ b :: us) := by
  have hvisible : (shown (tokensOf text)).filter (·.kind != .newline) =
      front ++ a :: (mid ++ b :: back) := by
    rw [shown, filter_filter, ← hts]
    rfl
  obtain ⟨before, rest, hshown, -, hrest⟩ := filter_eq_append_iff.1 hvisible
  obtain ⟨skipped, rest, rfl, -, ha, hrest⟩ := filter_eq_cons_iff.1 hrest
  obtain ⟨mid', rest, rfl, hmid, hrest⟩ := filter_eq_append_iff.1 hrest
  obtain ⟨skipped', us, rfl, hskipped, hb, -⟩ := filter_eq_cons_iff.1 hrest
  rw [← append_assoc] at hshown
  obtain ⟨_, behind, s, -, -, hshows, -, -⟩ := h.exists_cells hshown
  -- a line that ended between the two tokens would take the second one to another line
  have hnone : ∀ u ∈ mid' ++ skipped', u.kind ≠ .newline := by
    cases hshows with
    | line ht _ =>
      exact absurd (show a.kind = .newline from congrArg Mark.kind ht) (by simpa using ha)
    | core ht hrest =>
      rw [← append_assoc] at hrest
      exact hrest.no_newline (by simpa using hb) (by rw [hline, ht.stopLine])
  obtain rfl : skipped' = [] := by
    refine eq_nil_iff_forall_not_mem.2 fun u hu => ?_
    exact hnone u (mem_append_right _ hu) (by simpa using hskipped u hu)
  obtain rfl : mid' = mid := by
    rw [← hmid, filter_eq_self.2]
    intro u hu
    simpa using hnone u (mem_append_left _ hu)
  exact ⟨before ++ skipped, us, hshown⟩

/-- The tokens that are shown are a run of the grammar. -/
theorem exists_run (h : Cut text cells) :
    ∃ c, Config.run {} ((shown (tokensOf text)).map mark) = some c := by
  obtain ⟨last, hrun, -⟩ := (Option.any_eq_true _ _).1 h.accepts_marksOf
  exact ⟨last, (Config.run_filter_blank _ _).trans hrun⟩

/-- The config in front of a token. -/
theorem exists_step (h : Cut text cells) (hts : shown (tokensOf text) = ts ++ t :: us) :
    ∃ c d, Config.run {} (ts.map mark) = some c ∧ c.step t.mark = some d ∧
      (d.run (us.map mark)).isSome = true := by
  obtain ⟨last, hrun⟩ := h.exists_run
  rw [hts, map_append, Config.run_append] at hrun
  obtain ⟨c, hc, hrest⟩ := Option.bind_eq_some_iff.1 hrun
  obtain ⟨d, hd, hrest⟩ := Config.exists_step_of_run (Option.isSome_of_mem hrest)
  exact ⟨c, d, hc, hd, hrest⟩

/-- A text with cells has no invalid token. -/
theorem not_isInvalid (h : Cut text cells) (ht : t ∈ tokensOf text) :
    isInvalid t = false := by
  cases hinvalid : isInvalid t with
  | false => rfl
  | true =>
    obtain ⟨unknown, hkind⟩ : ∃ unknown, t.kind = .invalid unknown := by
      unfold isInvalid at hinvalid
      split at hinvalid
      · exact ⟨_, ‹_›⟩
      · cases hinvalid
    obtain ⟨ts, us, hts⟩ := append_of_mem (mem_shown ht (by simp [hkind]))
    obtain ⟨c, d, -, hstep, -⟩ := h.exists_step hts
    exact absurd hkind (Config.kind_ne_invalid_of_step hstep unknown)


/-! ### Separators -/

/-- No visible token is a newline. -/
theorem kind_ne_newline_of_mem (hts : (tokensOf text).filter isVisible = ts) (ht : t ∈ ts) :
    t.kind ≠ .newline := by
  subst hts
  have hvisible := (mem_filter.1 ht).2
  simp only [isVisible, Bool.and_eq_true, bne_iff_ne] at hvisible
  exact hvisible.1

/-- A visible token is on one line. -/
theorem line_eq (h : Cut text cells) (hts : (tokensOf text).filter isVisible = ts)
    (ht : t ∈ ts) : t.range.stop.line = t.range.start.line := by
  have hkind := kind_ne_newline_of_mem hts ht
  subst hts
  obtain ⟨ht, hvisible⟩ := mem_filter.1 ht
  simp only [isVisible, Bool.and_eq_true] at hvisible
  exact h.shows.line_eq (mem_filter.2 ⟨ht, hvisible.2⟩) hkind

/-- A gap around a separator may be replaced. -/
theorem allows_of_mem_padding (h : Cut text cells) {lines : List (List Char)} {d : Diagnostic}
    (hd : d ∈ padding lines ((tokensOf text).filter isVisible)) {e : Edit}
    (he : d.fix = some e) : Allows width {} .origin cells e := by
  obtain ⟨front, a, b, c, back, hts, hb, hd⟩ := exists_of_mem_padding hd
  have hkind {t : Token} (ht : t ∈ front ++ a :: b :: c :: back) : t.kind ≠ .newline :=
    kind_ne_newline_of_mem hts ht
  have hline : b.range.stop.line = b.range.start.line := h.line_eq hts (by simp)
  have hseparator : b.kind = .comma ∨ b.kind = .colon := by
    simpa [isSeparator] using hb
  rcases cases_of_mem_gapsAround hd with ⟨hsame, hne, rfl⟩ | ⟨hsame, hne, rfl⟩
  · obtain rfl : (⟨⟨a.range.stop, b.range.start⟩, spaces 0⟩ : Edit) = e := Option.some.inj he
    rw [spaces_eq]
    have hrow : _ = front ++ a :: ([] ++ b :: c :: back) := hts
    obtain ⟨ts, us, hshown⟩ := h.exists_shown hrow hsame.symm
    refine h.allows_between (f := .blanks []) hshown (hkind (by simp)) (hkind (by simp)) rfl fun gap
      x hx hstart => ?_
    refine .before ?_ ?_ ?_
    · rw [run_append]
      exact bne_iff_ne.2 (hkind (by simp))
    · rw [hx] at hseparator
      exact hseparator.imp Category.eq_comma_of_tokenKind Category.eq_colon_of_tokenKind
    · rintro rfl
      exact hne hstart.symm
  · obtain rfl : (⟨⟨b.range.stop, c.range.start⟩, spaces 1⟩ : Edit) = e := Option.some.inj he
    rw [spaces_eq]
    have hrow : _ = front ++ [a] ++ b :: ([] ++ c :: back) := hts.trans (append_cons ..)
    obtain ⟨ts, us, hshown⟩ := h.exists_shown hrow (hsame.trans hline.symm)
    refine h.allows_between (f := .blanks [' ']) hshown (hkind (by simp)) (hkind (by simp)) rfl
      fun gap x hx hstart => ?_
    obtain ⟨c₀, c₁, hrun, hstep, hrest⟩ := h.exists_step hshown
    obtain ⟨c₂, hstep', -⟩ := Config.exists_step_of_run hrest
    have hnot := Config.not_separator_of_step hrun hstep hstep' hseparator
    refine .behind ?_ ?_ ?_ ?_
    · rw [run_append]
      exact bne_iff_ne.2 (hkind (by simp))
    · rw [run_append]
      simpa [Spot.next] using hseparator
    · constructor
      · intro hcomma
        exact hnot.1 (hx.trans (by rw [hcomma]; rfl))
      · intro hcolon
        exact hnot.2 (hx.trans (by rw [hcolon]; rfl))
    · intro hwidth
      rw [hstart] at hne
      exact hne (by simp only [hwidth])

/-! ### Line breaks -/

/-- A line may be broken in a block: in front of a closing bracket, or behind an opening bracket and
the comments behind it. -/
theorem allows_of_mem_lineBreaks (h : Cut text cells) {indent : Position → Nat} {block : Block Data}
    (hblock : Enclosed (tokensOf text) block.contents.kind block.range block.tokens)
    {d : Diagnostic} (hd : d ∈ lineBreaks indent (tokensOf text).toArray block) {e : Edit}
    (he : d.fix = some e) : Allows width {} .origin cells e := by
  have hitems : (tokensOf text).filter isItem = (tokensOf text).filter isVisible :=
    filter_congr fun t ht => by
      rw [isItem, h.not_isInvalid ht, Bool.not_false, Bool.and_true]
  have hlacks := lacks_of_mem_lineBreaks hblock hd
  rw [hitems] at hlacks
  cases hlacks with
  | @closing front back last closing stop hts hkind hstop hline =>
    obtain rfl : (⟨⟨last.range.stop, closing.range.start⟩,
      "\n" ++ spaces (indent stop)⟩ : Edit) = e :=
      Option.some.inj he
    have hrow : (tokensOf text).filter isVisible =
        front ++ last :: ([] ++ closing :: back) := hts
    have hclosing : closing.range.start.line = last.range.stop.line := by
      rw [hline, hstop, h.line_eq hts (by simp)]
    obtain ⟨ts, us, hshown⟩ := h.exists_shown hrow hclosing
    have hne : last.kind ≠ .newline := kind_ne_newline_of_mem hts (by simp)
    rw [newline_append_spaces]
    refine h.allows_between hshown hne (by simp [hkind]) rfl fun gap x hx _ => .wrap _ ?_ (.inl ?_)
    · rw [run_append]
      exact bne_iff_ne.2 hne
    · rw [← hx, hkind]
      rfl
  | @opening front comments back opening anchor first hts hkind hcomments hanchor hfirst hline =>
    obtain rfl : (⟨⟨anchor.range.stop, first.range.start⟩,
        "\n" ++ spaces (indent first.range.start)⟩ : Edit) = e := Option.some.inj he
    have hsame : first.range.start.line = opening.range.stop.line := by
      rw [hline, h.line_eq hts (by simp)]
    obtain ⟨ts, us, hshown⟩ := h.exists_shown hts hsame
    obtain ⟨init, hinit⟩ := getLast?_eq_some_iff.1 hanchor
    have hshown' : shown (tokensOf text) = ts ++ init ++ anchor :: first :: us := by
      rw [hshown, ← cons_append, hinit]
      simp
    have hkinds : (ts ++ init).map (·.kind) ++ [anchor.kind] =
        ts.map (·.kind) ++ opening.kind :: comments.map (·.kind) := by
      rw [← map_cons, hinit]
      simp
    have hne : anchor.kind ≠ .newline :=
      kind_ne_newline_of_mem hts <| by
        rw [← cons_append, hinit]
        simp
    have hignored : ∀ k ∈ comments.map (·.kind), k = .ignored := by
      intro k hk
      obtain ⟨t, ht, rfl⟩ := mem_map.1 hk
      simpa [isIgnored] using hcomments t ht
    rw [newline_append_spaces]
    refine h.allows_between hshown' hne (kind_ne_newline_of_mem hts (by simp)) rfl
      fun gap x hx _ => .wrap _ ?_ (.inr ⟨?_, ?_⟩)
    · rw [run_append]
      exact bne_iff_ne.2 hne
    · rw [hkinds, run_append, run_cons, (run_ignored hignored _).2, hkind]
      rfl
    · cases hcomment : x.category.isComment with
      | false => rfl
      | true =>
        rw [isIgnored, hx, Category.tokenKind_of_isComment hcomment] at hfirst
        cases hfirst

end Cut

end Document

end TypedNotation
