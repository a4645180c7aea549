import TypedNotation.Proofs.FixPlaces

/-!
# Fixes at the edges of a line

The cells of a document are taken apart line by line: a line is a row of cells up to one that ends
it (`Cell.FirstLine`), and every line that the layout looks at starts at some place among the cells
(`Cell.RowStart`). Where no string runs on, the blanks at the end of a line are the gap in front of
its end, and its indent is the gap of its first cell. A line inside of a string is told by its first
and last tokens, because no token of the document is invalid. The indent that is wanted is that of
the open brackets in front of the line (`Document.Cut.depth_eq`).
-/

namespace TypedNotation

open List Text
open Layout (Row)

/-- The tokens of a line are among those of all lines. -/
theorem LineState.mem_tokensOfLines {s : LineState} {line : Nat} {lines : List (List Char)}
    {r : Row} (hr : r ∈ s.rows line lines) {t : Token} (ht : t ∈ r.tokens) :
    t ∈ s.tokensOfLines line lines := by
  induction lines generalizing s line with
  | nil => cases hr
  | cons text lines ih =>
    rw [tokensOfLines]
    rcases mem_cons.1 hr with rfl | hr
    · exact mem_append_left _ (mem_append_left _ ht)
    · exact mem_append_right _ (ih hr)

theorem Text.trimEnd_append_blank (cs : List Char) {gap : List Char}
    (h : ∀ c ∈ gap, isBlank c = true) : trimEnd (cs ++ gap) = trimEnd cs := by
  rw [trimEnd, reverse_append, dropWhile_append_of_pos (by simpa using h), trimEnd]

theorem Text.indent_append {gap rest : List Char} (hgap : ∀ c ∈ gap, isBlank c = true)
    (hrest : ∀ c ∈ rest.head?, isBlank c = false) : indent (gap ++ rest) = gap := by
  rw [indent, takeWhile_append_of_pos hgap]
  cases rest with
  | nil => simp
  | cons c rest => simp [hrest c rfl]

theorem Text.units16_spaces (n : Nat) : units16 (List.replicate n ' ') = n := by
  induction n with
  | zero => rfl
  | succ n ih =>
    rw [replicate_succ, units16_cons, ih, Nat.add_comm]
    rfl

namespace Token

theorem balance_shown (ts : List Token) : balance (shown ts) = balance ts := by
  induction ts with
  | nil => rfl
  | cons t ts ih =>
    rw [balance_cons, ← ih]
    by_cases hkind : t.kind = .ignored
    · rw [hkind, shown, filter_cons, ← shown]
      split
      · rw [balance_cons, hkind]
      · exact (Int.zero_add _).symm
    · rw [shown_cons hkind, balance_cons]

/-- A token that is shown among all tokens. -/
theorem exists_of_shown {ts front back : List Token} {t : Token}
    (h : shown ts = front ++ t :: back) :
    ∃ front' back', ts = front' ++ t :: back' ∧ balance front' = balance front := by
  obtain ⟨before, after, rfl, rfl, hafter⟩ := filter_eq_append_iff.1 h
  obtain ⟨skipped, back', rfl, hskipped, -, -⟩ := filter_eq_cons_iff.1 hafter
  have hnone : shown skipped = [] := filter_eq_nil_iff.2 hskipped
  refine ⟨before ++ skipped, back', by simp, ?_⟩
  rw [← balance_shown, shown_append, hnone, append_nil]
  rfl

end Token

theorem Category.isComment_of_bracket {k : Category} {kind : BlockKind} {side : Side}
    (h : k.tokenKind = .bracket kind side) : k.isComment = false := by
  cases k <;> first | rfl | cases h

theorem Scanner.Takes.units16_of_bracket {s next : Scanner} {x : Lexeme} (h : s.Takes x next)
    {kind : BlockKind} {side : Side} (hx : x.category.tokenKind = .bracket kind side) :
    units16 x.text = 1 := by
  cases h with
  | opening k => cases k <;> rfl
  | @closing _ _ _ k _ => cases k <;> rfl
  | number | negative => split at hx <;> cases hx
  | _ => cases hx

namespace Cell

/-- Brackets are shown one column wide. -/
theorem Shows.bracketsFit {line column : Nat} {cells : List Cell} {ts : List Token}
    (h : Shows line column cells ts) {s : Scanner} (hreads : Reads s cells) :
    Token.BracketsFit ts := by
  induction h generalizing s with
  | nil => exact fun t ht => nomatch ht
  | line ht hrest ih =>
    cases hreads with
    | line _ _ hreads =>
      intro u hu hbracket
      rcases mem_cons.1 hu with rfl | hu
      · have hkind : u.kind = .newline := congrArg Mark.kind ht
        simp [Chunk.isBracket, hkind] at hbracket
      · exact ih hreads u hu hbracket
  | core ht hrest ih =>
    obtain ⟨next, htakes, -, hreads⟩ := hreads.of_core
    intro u hu hbracket
    rcases mem_cons.1 hu with rfl | hu
    · obtain ⟨kind, side, hkind⟩ := Chunk.exists_of_isBracket hbracket
      have hx := ht.kind.symm.trans hkind
      have hcomment : _ = false := Category.isComment_of_bracket hx
      rw [ht.start_eq (.inr hcomment), ht.stop_eq (.inr hcomment), htakes.units16_of_bracket hx]
    · exact ih hreads u hu hbracket

/-- The first line of some cells: the cells on it, the gap at its end and what is behind it. The
scanner is in state `s` at its start and in state `last` at its end. -/
structure FirstLine (s : Scanner) (cells cores : List Cell) (gap : List Char) (ret : Bool)
    (rest : List Cell) (last : Scanner) : Prop where
  cells_eq : cells = cores ++ ⟨gap, .line ret⟩ :: rest
  onLine : ∀ c ∈ cores, c.stop.isLine = false
  rows_eq : rows cells = (chars cores ++ gap) :: rows rest
  scan : (s.scan (chars cores ++ gap)).2 = last
  gapFits : last.GapFits gap
  empty : cores = [] → last = s
  solid : last.mode ≠ .string → ∀ c ∈ (chars cores).getLast?, isBlank c = false
  tracks : ∀ spot, Tracks s s spot → Tracks last last (spot.run (kinds cores))
  reads : Reads last.nextLine rest

theorem Reads.exists_firstLine {s : Scanner} {cells : List Cell} (h : Reads s cells)
    (hne : cells ≠ []) {c : Config} (hrun : (c.run (marks cells)).isSome = true) :
    ∃ cores gap ret rest last, FirstLine s cells cores gap ret rest last := by
  induction h generalizing c with
  | nil => exact absurd rfl hne
  | @line s gap ret rest hgap hret hrest ih =>
    refine ⟨[], gap, ret, rest, s, rfl, by simp, rfl, ?_, hgap, fun _ => rfl, by simp, fun _ h => h,
      hrest⟩
    by_cases hstring : s.mode = .string
    · rw [hgap.string hstring, chars_nil, append_nil, Scanner.scan]
    · exact (Scanner.tokensAt_blank gap hstring hgap.blank 0 0).2
  | @core s next gap x y rest hgap htakes hwhole hmeets hrest ih =>
    rw [marks_cons] at hrun
    obtain ⟨c', hstep, hrun'⟩ := Config.exists_step_of_run hrun
    obtain ⟨cores, tail, ret, behind, last, hline⟩ := ih (by simp) hrun'
    have hprecedes := hrest.precedes htakes hmeets hstep hrun' hline.rows_eq
    obtain ⟨t, -, hscan, -⟩ := htakes.showsFirst hgap hwhole hprecedes 0 0
    refine ⟨⟨gap, .core x⟩ :: cores, tail, ret, behind, last, ?_, ?_, ?_, ?_, hline.gapFits,
      by simp, ?_, fun spot ht => hline.tracks _ (ht.core htakes rfl id), hline.reads⟩
    · rw [hline.cells_eq]
      rfl
    · intro d hd
      rcases mem_cons.1 hd with rfl | hd
      · rfl
      · exact hline.onLine d hd
    · rw [rows, hline.rows_eq]
      simp [Stop.text]
    · rw [chars_cons, append_assoc, append_assoc]
      exact hscan.trans hline.scan
    · intro hmode d hd
      rw [chars_cons, getLast?_append, getLast?_append] at hd
      cases hlast : (chars cores).getLast? with
      | some e =>
        refine hline.solid hmode d ?_
        rw [hlast] at hd ⊢
        exact hd
      | none =>
        have hcores : cores = [] := by
          cases cores with
          | nil => rfl
          | cons k ks =>
            obtain ⟨rfl, -⟩ := List.cons.inj hline.cells_eq
            rw [chars_cons] at hlast
            simp [hrest.stop_text_ne_nil] at hlast
        obtain rfl := hline.empty hcores
        rw [hlast] at hd
        refine (htakes.ends_of_next hwhole hmode).2 d ?_
        simpa [Stop.text, htakes.text_ne_nil] using hd

/-- Cells on one line are as wide as their characters. -/
theorem place_of_onLine {cells : List Cell} (h : ∀ c ∈ cells, c.stop.isLine = false)
    (p : Position) : place p cells = ⟨p.line, p.character + units16 (chars cells)⟩ := by
  induction cells generalizing p with
  | nil => rfl
  | cons c cells ih =>
    obtain ⟨gap, stop⟩ := c
    cases stop with
    | line ret => cases h _ mem_cons_self
    | core x =>
      rw [place_cons, ih fun c hc => h c (mem_cons_of_mem _ hc), chars_cons, units16_append,
        units16_append]
      simp [after, Stop.text, Nat.add_assoc]

/-- A line of a text among its cells: the cells in front of it, and those from its start on. The
scanner is in state `start` at its start. -/
structure RowStart (spot : Spot) (p : Position) (cells : List Cell) (r : Row)
    (front below : List Cell) (start : LineState) : Prop where
  cells_eq : cells = front ++ below
  place_eq : place p front = ⟨r.number, 0⟩
  inRow : (spot.run (kinds front)).inRow = false
  tracks : Tracks ⟨start, false⟩ ⟨start, false⟩ (spot.run (kinds front))
  reads : Reads ⟨start, false⟩ below
  run : ∃ c : Config, (c.run (marks below)).isSome = true
  text : ∃ more, rows below = r.text :: more
  tokens : r.tokens = Lexeme.tokensFrom r.number 0 (start.scan r.text).1

theorem exists_rowStart {s : LineState} {cells : List Cell} (h : Reads ⟨s, false⟩ cells)
    {c : Config} (hrun : (c.run (marks cells)).isSome = true) {spot : Spot}
    (ht : Tracks ⟨s, false⟩ ⟨s, false⟩ spot) (hrow : spot.inRow = false) {line : Nat} {r : Row}
    (hr : r ∈ s.rows line (rows cells)) :
    ∃ front below start, RowStart spot ⟨line, 0⟩ cells r front below start := by
  generalize hlines : rows cells = lines at hr
  induction lines generalizing s cells c spot line with
  | nil => cases hr
  | cons text lines ih =>
    have hne : cells ≠ [] := by
      rintro rfl
      cases hlines
    obtain ⟨cores, gap, ret, rest, last, hfirst⟩ := h.exists_firstLine hne hrun
    obtain ⟨rfl, rfl⟩ := List.cons.inj (hlines.symm.trans hfirst.rows_eq)
    rcases mem_cons.1 hr with rfl | hr
    · exact ⟨[], cells, s, rfl, rfl, hrow, ht, h, ⟨c, hrun⟩, ⟨_, hlines⟩, rfl⟩
    · have hstate : (s.scan (chars cores ++ gap)).2 = last.toLineState :=
        congrArg Scanner.toLineState hfirst.scan
      rw [hstate] at hr
      obtain ⟨c', hrun'⟩ : ∃ c' : Config, (c'.run (marks rest)).isSome = true := by
        rw [hfirst.cells_eq, marks_append, Config.run_append] at hrun
        obtain ⟨final, hfinal⟩ := Option.isSome_iff_exists.1 hrun
        obtain ⟨c₁, -, hbehind⟩ := Option.bind_eq_some_iff.1 hfinal
        obtain ⟨c₂, -, hrest⟩ := Config.exists_step_of_run (Option.isSome_of_mem hbehind)
        exact ⟨c₂, hrest⟩
      obtain ⟨front, below, start, hstart⟩ :=
        ih hfirst.reads hrun' (hfirst.tracks _ ht).line rfl rfl hr
      have hkinds : spot.run (kinds (cores ++ ⟨gap, .line ret⟩ :: front)) =
          ((spot.run (kinds cores)).next .newline).run (kinds front) := by
        rw [kinds_append, Spot.run_append]
        rfl
      refine ⟨cores ++ ⟨gap, .line ret⟩ :: front, below, start, ?_, ?_, hkinds ▸ hstart.inRow,
        hkinds ▸ hstart.tracks, hstart.reads, hstart.run, hstart.text, hstart.tokens⟩
      · rw [hfirst.cells_eq, hstart.cells_eq]
        simp
      · rw [place_append, place_cons, place_of_onLine hfirst.onLine]
        exact hstart.place_eq

end Cell

namespace Document.Cut

open Cell
open Token (shown)

variable {text : String} {cells : List Cell} {r : Row} {width : Nat} {d : Diagnostic} {e : Edit}

/-- A line of a document among its cells, and the cells of that line. -/
theorem exists_firstLine (h : Cut text cells)
    (hr : r ∈ Layout.rows (linesOf text) (tokensOf text)) :
    ∃ front below start, RowStart {} .origin cells r front below start ∧
      ∃ cores gap ret rest last, FirstLine ⟨start, false⟩ below cores gap ret rest last ∧
        r.text = Cell.chars cores ++ gap := by
  rw [tokensOf_eq, LineState.rows_eq, h.lines_eq] at hr
  obtain ⟨last, hrun, -⟩ := (Option.any_eq_true _ _).1 h.accepts
  have htracks : Tracks ⟨{}, false⟩ ⟨{}, false⟩ {} := ⟨rfl, by simp, by simp, by simp⟩
  obtain ⟨front, below, start, hstart⟩ :=
    exists_rowStart h.reads (Option.isSome_of_mem hrun) htracks rfl hr
  obtain ⟨more, htext⟩ := hstart.text
  obtain ⟨c, hrun⟩ := hstart.run
  obtain ⟨cores, gap, ret, rest, last, hfirst⟩ :=
    hstart.reads.exists_firstLine (fun hnil => by simp [hnil, rows] at htext) hrun
  exact ⟨front, below, start, hstart, cores, gap, ret, rest, last, hfirst,
    (List.cons.inj (htext.symm.trans hfirst.rows_eq)).1⟩

/-- A token of a line is one of the tokens of the text. -/
theorem mem_tokensOf (hr : r ∈ Layout.rows (linesOf text) (tokensOf text)) {t : Token}
    (ht : t ∈ r.tokens) : t ∈ tokensOf text := by
  rw [tokensOf_eq, LineState.rows_eq] at hr
  rw [tokensOf_eq]
  exact LineState.mem_tokensOfLines hr ht

/-- Blanks at the end of a line may be taken away. -/
theorem allows_of_mem_trailingBlanks (h : Cut text cells)
    (hr : r ∈ Layout.rows (linesOf text) (tokensOf text)) (hd : d ∈ Layout.trailingBlanks r)
    (he : d.fix = some e) : Allows width {} .origin cells e := by
  obtain ⟨front, below, start, hstart, cores, gap, ret, rest, last, hfirst, hrow⟩ :=
    h.exists_firstLine hr
  simp only [Layout.trailingBlanks, mem_ite_nil_left, Bool.or_eq_true, decide_eq_true_eq, not_or,
    mem_singleton] at hd
  obtain ⟨⟨hends, hlength⟩, rfl⟩ := hd
  have hmode : last.mode ≠ .string := by
    intro hstring
    have hscan : (Scanner.scan ⟨start, false⟩ r.text).2.mode = .string := by
      rw [hrow, hfirst.scan, hstring]
    have hne : r.text ≠ [] := by
      intro hnil
      simp [hnil, trimEnd] at hlength
    obtain ⟨t, ht, hinside⟩ := Scanner.exists_last_scan hscan hne r.number 0
    have hlast : r.tokens.getLast? = some t := hstart.tokens ▸ ht
    rcases hinside with hinside | hinvalid
    · simp [Row.endsInString, hlast, hinside] at hends
    · have hmem := mem_tokensOf hr (mem_of_getLast? hlast)
      simp [h.not_isInvalid hmem] at hinvalid
  have hkept : trimEnd r.text = Cell.chars cores := by
    rw [hrow, trimEnd_append_blank _ hfirst.gapFits.blank,
      trimEnd_eq_self (hfirst.solid hmode)]
  have hgap : gap ≠ [] := by
    rintro rfl
    rw [hkept, hrow, append_nil] at hlength
    exact hlength rfl
  have hquoted : (Spot.run {} (kinds (front ++ cores))).quoted = false := by
    rw [kinds_append, Spot.run_append]
    cases hq : (((Spot.run {} (kinds front)).run (kinds cores))).quoted with
    | false => rfl
    | true => exact absurd ((hfirst.tracks _ hstart.tracks).quoted.1 hq) hmode
  rw [hstart.cells_eq, hfirst.cells_eq, ← append_assoc]
  refine allows_of_fills (.tail hquoted hgap) ?_
  rw [place_append, hstart.place_eq, place_of_onLine hfirst.onLine]
  refine congrArg (fun e => [e]) (Option.some.inj (Eq.trans ?_ he))
  rw [hkept, hrow, units16_append]
  simp [Layout.warn, Diagnostic.withFix, gapRange, Range.onLine]

/-- Brackets are one column wide. -/
theorem bracketsFit (h : Cut text cells) : Token.BracketsFit (tokensOf text) := by
  intro t ht hbracket
  refine h.shows.bracketsFit h.reads t (Token.mem_shown ht ?_) hbracket
  intro hkind
  simp [Chunk.isBracket, hkind] at hbracket

/-- The number of blocks around the first token of a line. -/
theorem depth_eq (h : Cut text cells) {c : Chunk} {data : Data} (haccepted : Accepted text c data)
    {front behind : List Cell} {gap : List Char} {x : Lexeme}
    (hcells : cells = front ++ ⟨gap, .core x⟩ :: behind) {line : Nat}
    (hplace : place .origin front = ⟨line, 0⟩) :
    ((Spot.run {} (kinds front)).depth - if x.category.tokenKind.isClosing then 1 else 0).toNat =
      data.depthAt ⟨line, units16 gap⟩ := by
  have hshows : Shows 0 0 (front ++ ⟨gap, .core x⟩ :: behind) (shown (tokensOf text)) :=
    hcells ▸ h.shows
  obtain ⟨before, after, hshown, hkinds, hbehind⟩ := hshows.split
  have hplace' : place ⟨0, 0⟩ front = ⟨line, 0⟩ := hplace
  rw [hplace'] at hbehind
  cases hbehind with
  | @core _ _ _ _ _ _ t ts ht hrest =>
    obtain ⟨front', back', hts, hbalance⟩ := Token.exists_of_shown hshown
    have hcontains := ht.contains
    rw [Nat.zero_add] at hcontains
    have hdepth := haccepted.depthAt_eq h.bracketsFit hts hcontains
    rw [Chunk.depthIn, hbalance, ht.kind] at hdepth
    rw [hkinds, Spot.depth_run, Int.zero_add, ← hdepth, Int.toNat_natCast]

/-- The indent of a line may be replaced. -/
theorem allows_of_mem_indentation (h : Cut text cells) {c : Chunk} {data : Data}
    (haccepted : Accepted text c data) {settings : LayoutSettings}
    (hr : r ∈ Layout.rows (linesOf text) (tokensOf text))
    (hd : d ∈ Layout.indentation settings data r) (he : d.fix = some e) :
    Allows settings.indentWidth {} .origin cells e := by
  obtain ⟨front, below, start, hstart, cores, tail, ret, rest, last, hfirst, hrow⟩ :=
    h.exists_firstLine hr
  simp only [Layout.indentation, mem_ite_nil_left, Bool.or_eq_true, not_or, mem_singleton] at hd
  obtain ⟨⟨⟨hblank, hstarts⟩, hindent⟩, rfl⟩ := hd
  -- a line that starts in a string has a string token first, and then no indent is looked at
  have hmode : start.mode ≠ .string := by
    intro hstring
    have hne : r.text ≠ [] := by
      intro hnil
      simp [hnil, allBlank] at hblank
    have hstring' : (⟨start, false⟩ : Scanner).mode = .string := hstring
    obtain ⟨t, ht, hinside⟩ := Scanner.exists_head_scan hstring' hne r.number 0
    have hhead : r.tokens.head? = some t := hstart.tokens ▸ ht
    rcases hinside with hinside | hinvalid
    · simp [Row.startsInString, hhead, hinside] at hstarts
    · have hmem := mem_tokensOf hr (mem_of_head? hhead)
      simp [h.not_isInvalid hmem] at hinvalid
  have hgap := hfirst.gapFits.blank
  cases cores with
  | nil =>
    refine absurd ?_ hblank
    rw [hrow]
    simpa [allBlank] using hgap
  | cons first cores =>
    obtain ⟨gap, stop⟩ := first
    cases stop with
    | line ret => cases hfirst.onLine _ mem_cons_self
    | core x =>
      have hbelow : below = ⟨gap, .core x⟩ :: (cores ++ ⟨tail, .line ret⟩ :: rest) :=
        hfirst.cells_eq
      have hreads := hbelow ▸ hstart.reads
      obtain ⟨next, htakes, hwhole, -⟩ := hreads.of_core
      have hindent' : indent r.text = gap := by
        rw [hrow, chars_cons, append_assoc]
        refine indent_append hreads.gapFits.blank ?_
        intro d hd
        refine htakes.head_of_ne_string hwhole hmode d ?_
        simpa [Stop.text, htakes.text_ne_nil, head?_append] using hd
      have hexpected : Layout.indentAt settings data ⟨r.number, units16 gap⟩ =
          (Spot.run {} (kinds front)).indent settings.indentWidth x.category.tokenKind := by
        rw [Layout.indentAt, Spot.indent,
          h.depth_eq haccepted (hbelow ▸ hstart.cells_eq) hstart.place_eq]
      rw [hindent', hexpected] at hindent he
      have hwrong : gap ≠ List.replicate
          ((Spot.run {} (kinds front)).indent settings.indentWidth x.category.tokenKind) ' ' := by
        intro hspaces
        refine hindent ?_
        generalize Spot.indent _ _ _ = n at hspaces
        rw [hspaces, units16_spaces]
        simp
      have hquoted : (Spot.run {} (kinds front)).quoted = false := by
        cases hq : (Spot.run {} (kinds front)).quoted with
        | false => rfl
        | true => exact absurd (hstart.tracks.quoted.1 hq) hmode
      rw [hstart.cells_eq, hbelow]
      refine allows_of_fills (.head hquoted hstart.inRow hwrong) ?_
      rw [hstart.place_eq]
      refine congrArg (fun e => [e]) (Option.some.inj (Eq.trans ?_ he))
      simp [Layout.warn, Diagnostic.withFix, gapRange, Range.onLine, Layout.spaces_eq]

end Document.Cut

end TypedNotation
